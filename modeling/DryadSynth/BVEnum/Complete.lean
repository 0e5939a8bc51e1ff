import DryadSynth.BVEnum.Heights
import DryadSynth.Library.Exits

/-!
# Completeness of the enumeration by height

The storage after a height holds for every nonterminal exactly the expressions with a
derivation tree of that height, `Built`.  Each loop of a round adds the candidates of what it
passes to the list, so that `round_spec` follows from what `backtrack` combines and what
`genPermutations` lists.
-/

namespace DryadSynth

open Sygus (Grammar)
open Sygus.DnC (Rule)
open Exits (Ends)
open QFBV (Term)

namespace BVEnum

variable {E : Type} {b : BVEnum E} {storage : Storage E} {height : ℕ}

/-! ### Derivation trees by height -/

theorem derives_pos {nt : String} {k : ℕ} {e : E} (h : b.Derives nt k e) :
  1 ≤ k
  := by
  cases h with
  | terminal | leaf => exact le_rfl
  | unit | node => omega

theorem derivesAll_nil {hs : List ℕ} {es : List E} :
  b.DerivesAll [] hs es ↔ hs = [] ∧ es = []
  := by
  simp [DerivesAll]

theorem derivesAll_cons {s : String} {args : List String} {h : ℕ} {hs : List ℕ} {es : List E} :
  b.DerivesAll (s :: args) (h :: hs) es ↔
    ∃ e es', es = e :: es' ∧ b.Derives s h e ∧ b.DerivesAll args hs es'
  := by
  cases es with
  | nil => simp [DerivesAll]
  | cons e es =>
      simp only [DerivesAll, List.length_cons, Nat.add_right_cancel_iff, List.zip_cons_cons,
        List.forall_mem_cons, List.cons.injEq]
      constructor
      · rintro ⟨hhs, hes, hd, hall⟩
        exact ⟨e, es, ⟨rfl, rfl⟩, hd, hhs, hes, hall⟩
      · rintro ⟨_, _, ⟨rfl, rfl⟩, hd, hhs, hes, hall⟩
        exact ⟨hhs, hes, hd, hall⟩

theorem one_le_of_derivesAll {args : List String} {hs : List ℕ} {es : List E}
    (h : b.DerivesAll args hs es) :
  ∀ k ∈ hs, 1 ≤ k
  := by
  induction args generalizing hs es with
  | nil =>
      obtain ⟨rfl, -⟩ := derivesAll_nil.mp h
      simp
  | cons s args ih =>
      cases hs with
      | nil => simp
      | cons k hs =>
          obtain ⟨e, es', rfl, hd, hall⟩ := derivesAll_cons.mp h
          intro k' hk'
          rcases List.mem_cons.mp hk' with rfl | hk'
          · apply derives_pos hd
          · apply ih hall k' hk'

theorem mem_recRules {nt : String} {r : Rule} :
  r ∈ b.recRules nt ↔ r ∈ b.grammar.rules nt ∧ r.args ≠ []
  := by
  simp [recRules]

theorem mem_terminals {nt : String} {r : Rule} :
  r ∈ b.terminals nt ↔ r ∈ b.grammar.rules nt ∧ r.args = []
  := by
  simp [terminals]

/-- The expressions of height 1 are those of the terminals. -/
theorem derives_one (hb : b.Initial) {nt : String} (hnt : nt ∈ b.grammar.keys) {e : E} :
  b.Derives nt 1 e ↔ ∃ r ∈ b.terminals nt, b.getSybExpr r.termSyb = .ok e
  := by
  constructor
  · intro h
    generalize hk : 1 = k at h
    cases h with
    | terminal hr hargs _ he => exact ⟨_, mem_terminals.mpr ⟨hr, hargs⟩, he⟩
    | unit hr hunit => exact absurd hunit (hb.noUnit _ _ hr)
    | leaf hs => exact absurd hnt hs
    | node hr hargs hhs hes hd _ hmax =>
        have := one_le_of_derivesAll ⟨hhs, hes, hd⟩ _ hmax
        omega
  · rintro ⟨r, hr, he⟩
    obtain ⟨hr, hargs⟩ := mem_terminals.mp hr
    exact .terminal hr hargs (hb.noUnit nt r hr) he

/-- The expressions of a greater height are the applications of the productions. -/
theorem derives_succ (hb : b.Initial) {nt : String} {k : ℕ} (hk : 1 ≤ k) {e : E} :
  b.Derives nt (k + 1) e ↔ ∃ r ∈ b.recRules nt, ∃ hs es, IsTuple k r.args.length hs ∧
    b.DerivesAll r.args hs es ∧ b.dispatch r.termSyb es = .ok e
  := by
  constructor
  · intro h
    generalize hk' : k + 1 = k' at h
    cases h with
    | terminal | leaf => omega
    | unit hr hunit => exact absurd hunit (hb.noUnit _ _ hr)
    | @node _ r k₁ _ hs es hr hargs hhs hes hd hle hmax he =>
        obtain rfl : k = k₁ := by omega
        have hall : b.DerivesAll r.args hs es := ⟨hhs, hes, hd⟩
        refine ⟨r, mem_recRules.mpr ⟨hr, hargs⟩, hs, es, ⟨hhs, ?_, hmax⟩, hall, he⟩
        intro x hx
        exact ⟨one_le_of_derivesAll hall x hx, hle x hx⟩
  · rintro ⟨r, hr, hs, es, htuple, ⟨hhs, hes, hd⟩, he⟩
    obtain ⟨hr, hargs⟩ := mem_recRules.mp hr
    exact .node hr hargs hhs hes hd (fun x hx => (htuple.bounds x hx).2) htuple.max he

/-! ### The storage -/

/-- The storage holds the expressions of a symbol of this height. -/
def Holds (b : BVEnum E) (storage : Storage E) (nt : String) (height : ℕ) : Prop :=
  ∃ exprs, storage.find nt height = some exprs ∧ ∀ e, e ∈ exprs ↔ b.Derives nt height e

/-- The heights up to this one have been built.  A symbol without terminals has no list of
height 1. -/
structure Built (b : BVEnum E) (storage : Storage E) (height : ℕ) : Prop where
  known : ∀ nt ∈ b.grammar.keys, (storage nt).isSome
  holds : ∀ nt ∈ b.grammar.keys, ∀ j, 1 ≤ j → j ≤ height → 2 ≤ j ∨ b.terminals nt ≠ [] →
    b.Holds storage nt j

theorem find_put_self {nt : String} (h : (storage nt).isSome) (exprs : List E) :
  (storage.put nt height exprs).find nt height = some exprs
  := by
  obtain ⟨f, hf⟩ := Option.isSome_iff_exists.mp h
  simp [Storage.put, Storage.find, hf]

theorem find_put_of_ne {nt nt' : String} {j : ℕ} (h : nt' ≠ nt ∨ j ≠ height) (exprs : List E) :
  (storage.put nt height exprs).find nt' j = storage.find nt' j
  := by
  by_cases hnt : nt' = nt
  · subst hnt
    have hj : j ≠ height := h.resolve_left fun hne => hne rfl
    cases hf : storage nt' <;> simp [Storage.put, Storage.find, hf, hj]
  · simp [Storage.put, Storage.find, hnt]

theorem isSome_put {nt nt' : String} (exprs : List E) (h : (storage nt').isSome) :
  (storage.put nt height exprs nt').isSome
  := by
  by_cases hnt : nt' = nt
  · subst hnt
    simpa [Storage.put] using h
  · simpa [Storage.put, hnt] using h

theorem mem_keys_of_terminals {s : String} (h : b.terminals s ≠ []) :
  s ∈ b.grammar.keys
  := by
  obtain ⟨r, hr⟩ := List.exists_mem_of_ne_nil _ h
  obtain ⟨hr, -⟩ := mem_terminals.mp hr
  rw [Grammar.rules] at hr
  cases hlookup : b.grammar.lookup s with
  | none =>
      rw [hlookup] at hr
      cases hr
  | some l =>
      obtain ⟨l₁, l₂, heq, -⟩ := List.lookup_eq_some_iff.mp hlookup
      rw [Grammar.keys, heq]
      simp

theorem Built.exprsOf_spec (hbuilt : b.Built storage height) {s : String} {j : ℕ}
    (hs : b.terminals s ≠ []) (hpos : 1 ≤ j) (hj : j ≤ height) :
  ∃ exprs, exprsOf storage s j = .ok exprs ∧ ∀ e, e ∈ exprs ↔ b.Derives s j e
  := by
  obtain ⟨exprs, hfind, hmem⟩ := hbuilt.holds s (mem_keys_of_terminals hs) j hpos hj (.inr hs)
  refine ⟨exprs, ?_, hmem⟩
  rw [exprsOf, hfind]

/-- The combinations are the lists of expressions of the heights. -/
theorem Built.backtrack_spec (hbuilt : b.Built storage height) {args : List String}
    (hargs : ∀ s ∈ args, b.terminals s ≠ []) {hs : List ℕ} (hlen : hs.length = args.length)
    (hhs : ∀ h ∈ hs, 1 ≤ h ∧ h ≤ height) :
  ∃ combs, backtrack storage hs args = .ok combs ∧ ∀ es, es ∈ combs ↔ b.DerivesAll args hs es
  := by
  induction hs generalizing args with
  | nil =>
      obtain rfl : args = [] := List.length_eq_zero_iff.mp hlen.symm
      refine ⟨[[]], rfl, ?_⟩
      intro es
      rw [derivesAll_nil, List.mem_singleton]
      simp
  | cons h hs ih =>
      cases args with
      | nil => cases hlen
      | cons s args =>
          obtain ⟨hpos, hle⟩ := hhs h List.mem_cons_self
          obtain ⟨exprs, hexprs, hmem⟩ :=
            hbuilt.exprsOf_spec (hargs s List.mem_cons_self) hpos hle
          obtain ⟨combs, hcombs, hall⟩ :=
            ih (fun s' hs' => hargs s' (List.mem_cons_of_mem s hs')) (by simpa using hlen)
              fun h' hh' => hhs h' (List.mem_cons_of_mem h hh')
          rw [backtrack, hexprs, hcombs, ← Exits.ends_false]
          have hloop := Exits.ends_foldlM (Q := fun _ : JavaFault => False)
            (f := fun res expr => .ok (res ++ combs.map (expr :: ·))) (l := exprs) (s := [])
            (fun pre res => ∀ es, es ∈ res ↔ ∃ e ∈ pre, ∃ es' ∈ combs, e :: es' = es)
            (by simp) (by
              intro pre e post _ res hres es
              simp [hres, or_and_right, exists_or])
          apply Ends.mono hloop
          intro res hres es
          rw [hres, derivesAll_cons]
          constructor
          · rintro ⟨e, he, es', hes', rfl⟩
            exact ⟨e, es', rfl, (hmem e).mp he, (hall es').mp hes'⟩
          · rintro ⟨e, es', rfl, he, hes'⟩
            exact ⟨e, (hmem e).mpr he, es', (hall es').mpr hes', rfl⟩

/-! ### The loops -/

/-- The run is left with a result. -/
def IsReturn (x : Exit E) : Prop := ∃ e, x = .returned e

/-- The table holds what `genPermutations` computes. -/
def Cached (permutations : Permutations) : Prop :=
  ∀ maxH numArgs computed, permutations maxH numArgs = some computed →
    genPermutations maxH numArgs = .ok computed

theorem ends_lift {α : Type} {P : α → Prop} {x : Except JavaFault α} {Q : Exit E → Prop}
    (h : ∃ a, x = .ok a ∧ P a) :
  Ends Q P (lift x)
  := by
  apply Exits.ends_mapError h

/-- The list for a height and a number of arguments that is covered. -/
theorem genPermutations_spec {maxH numArgs : ℕ} (hpos : 1 ≤ maxH) (h : Covered maxH numArgs) :
  ∃ computed, genPermutations maxH numArgs = .ok computed ∧
    ∀ t, t ∈ computed ↔ IsTuple maxH numArgs t
  := by
  obtain ⟨computed, hcomputed, hall⟩ := yields_of_covered h
  refine ⟨computed, hcomputed, ?_⟩
  intro t
  refine ⟨?_, hall t⟩
  intro ht
  rw [genPermutations] at hcomputed
  split at hcomputed
  next => cases hcomputed
  next =>
    cases hcomputed
    apply isTuple_of_mem_inserted hpos
    rcases mem_of_mem_foldl_add ht with ht | ht
    · cases ht
    · apply ht

theorem getPermutation_spec {permutations : Permutations} (hcached : Cached permutations)
    {maxH numArgs : ℕ} (hpos : 1 ≤ maxH) (h : Covered maxH numArgs) :
  ∃ computed, getPermutation permutations maxH numArgs = .ok computed ∧ Cached computed.2 ∧
    ∀ t, t ∈ computed.1 ↔ IsTuple maxH numArgs t
  := by
  obtain ⟨computed, hcomputed, hall⟩ := genPermutations_spec hpos h
  rw [getPermutation]
  cases hfind : permutations maxH numArgs with
  | some l =>
      obtain rfl : l = computed := by
        have := hcached maxH numArgs l hfind
        rw [hcomputed] at this
        cases this
        rfl
      exact ⟨_, rfl, hcached, hall⟩
  | none =>
      rw [hcomputed]
      refine ⟨_, rfl, ?_, hall⟩
      intro maxH' numArgs' l hl
      by_cases hH : maxH' = maxH
      · subst hH
        by_cases hn : numArgs' = numArgs
        · subst hn
          simp only [Function.update_self, Option.some.injEq] at hl
          rw [hcomputed, hl]
        · apply hcached
          simpa [hn] using hl
      · apply hcached
        simpa [hH] using hl

theorem check_spec {e : E} (h : ∃ v, b.verify e = .ok v) :
  Ends IsReturn (fun _ => True) (b.check e)
  := by
  obtain ⟨v, hv⟩ := h
  rw [check, hv]
  cases v with
  | true => exact ⟨e, rfl⟩
  | false => trivial

theorem tryCombination_spec {nt op : String} {candidateList es : List E} {e : E}
    (he : b.dispatch op es = .ok e) (hv : nt = b.start → ∃ v, b.verify e = .ok v) :
  Ends IsReturn (fun l => l = candidateList ++ [e]) (b.tryCombination nt op candidateList es)
  := by
  rw [tryCombination, he]
  by_cases hnt : nt = b.start
  · apply Ends.bind (P := fun e' => e' = e) (ends_lift ⟨e, rfl, rfl⟩)
    rintro _ rfl
    rw [if_pos hnt]
    apply (check_spec (hv hnt)).bind
    intro _ _
    rfl
  · apply Ends.bind (P := fun e' => e' = e) (ends_lift ⟨e, rfl, rfl⟩)
    rintro _ rfl
    rw [if_neg hnt]
    rfl

section Round

variable {k : ℕ} {nt : String} (hb : b.Initial) (hk : 1 ≤ k) (hstep : b.StepOk (k + 1))

include hb hk hstep

/-- The candidates of a production at the given heights of its arguments. -/
theorem tryPermutation_spec (hbuilt : b.Built storage k) {r : Rule} (hr : r ∈ b.recRules nt)
    {hs : List ℕ} (hhs : IsTuple k r.args.length hs) (candidateList : List E) :
  Ends IsReturn
    (fun l => ∀ e, e ∈ l ↔
      e ∈ candidateList ∨ ∃ es, b.DerivesAll r.args hs es ∧ b.dispatch r.termSyb es = .ok e)
    (b.tryPermutation storage nt r candidateList hs)
  := by
  obtain ⟨combs, hcombs, hall⟩ :=
    hbuilt.backtrack_spec (hstep.operands nt r hr) hhs.length hhs.bounds
  rw [tryPermutation]
  apply Ends.bind (P := fun combs => ∀ es, es ∈ combs ↔ b.DerivesAll r.args hs es)
    (ends_lift ⟨combs, hcombs, hall⟩)
  intro argsCombs hargs
  apply Ends.mono (Exits.ends_foldlM (fun pre l => ∀ e, e ∈ l ↔
    e ∈ candidateList ∨ ∃ es ∈ pre, b.dispatch r.termSyb es = .ok e) (by simp) _)
  · intro l hl e
    rw [hl]
    simp only [hargs]
  · intro pre es post heq l hl
    have hes : b.DerivesAll r.args hs es := (hargs es).mp (by rw [heq]; simp)
    obtain ⟨e, he⟩ := hstep.dispatched nt r hr hs es hhs hes
    apply (tryCombination_spec he _).mono
    · rintro _ rfl e'
      rw [List.mem_append, List.mem_singleton, hl]
      constructor
      · rintro ((h | ⟨es', hes', he'⟩) | rfl)
        · exact .inl h
        · exact .inr ⟨es', List.mem_append_left _ hes', he'⟩
        · exact .inr ⟨es, by simp, he⟩
      · rintro (h | ⟨es', hes', he'⟩)
        · exact .inl (.inl h)
        · rcases List.mem_append.mp hes' with hes' | hes'
          · exact .inl (.inr ⟨es', hes', he'⟩)
          · rw [List.mem_singleton.mp hes', he] at he'
            cases he'
            exact .inr rfl
    · rintro rfl
      apply hstep.verified e
      apply (derives_succ hb hk).mpr ⟨r, hr, hs, es, hhs, hes, he⟩

/-- The candidates of a production. -/
theorem tryRule_spec (hbuilt : b.Built storage k) {r : Rule} (hr : r ∈ b.recRules nt)
    {acc : List E × Permutations} (hcached : Cached acc.2) :
  Ends IsReturn
    (fun acc' => Cached acc'.2 ∧ ∀ e, e ∈ acc'.1 ↔ e ∈ acc.1 ∨
      ∃ hs es, IsTuple k r.args.length hs ∧ b.DerivesAll r.args hs es ∧
        b.dispatch r.termSyb es = .ok e)
    (b.tryRule storage (k + 1) nt acc r)
  := by
  rw [tryRule, Nat.add_sub_cancel]
  apply Ends.bind (ends_lift (getPermutation_spec hcached hk (hstep.covered nt r hr)))
  rintro computed ⟨hcached', htuples⟩
  apply Ends.bind (Exits.ends_foldlM (fun pre l => ∀ e, e ∈ l ↔ e ∈ acc.1 ∨
    ∃ hs ∈ pre, ∃ es, b.DerivesAll r.args hs es ∧ b.dispatch r.termSyb es = .ok e) (by simp) _)
  · intro l hl
    refine ⟨hcached', ?_⟩
    intro e
    rw [hl]
    simp only [htuples, exists_and_left]
  · intro pre hs post heq l hl
    have hhs : IsTuple k r.args.length hs := (htuples hs).mp (by rw [heq]; simp)
    apply (tryPermutation_spec hb hk hstep hbuilt hr hhs l).mono
    intro l' hl' e
    rw [hl', hl]
    simp only [List.mem_append, List.mem_singleton, or_and_right, exists_or, exists_eq_left,
      or_assoc]

/-- The expressions of a nonterminal at the next height. -/
theorem tryNonTerminal_spec {st : State E} (hbuilt : b.Built st.storage k)
    (hcached : Cached st.permutations) :
  Ends IsReturn
    (fun st' => Cached st'.permutations ∧ ∃ exprs, (∀ e, e ∈ exprs ↔ b.Derives nt (k + 1) e) ∧
      st'.storage = st.storage.put nt (k + 1) exprs)
    (b.tryNonTerminal (k + 1) st nt)
  := by
  rw [tryNonTerminal]
  apply Ends.bind (Exits.ends_foldlM (fun pre acc => Cached acc.2 ∧ ∀ e, e ∈ acc.1 ↔
    ∃ r ∈ pre, ∃ hs es, IsTuple k r.args.length hs ∧ b.DerivesAll r.args hs es ∧
      b.dispatch r.termSyb es = .ok e) ⟨hcached, by simp⟩ _)
  · rintro acc ⟨hcached', hacc⟩
    refine ⟨hcached', acc.1, ?_, rfl⟩
    intro e
    rw [hacc, derives_succ hb hk]
  · rintro pre r post heq acc ⟨hcached', hacc⟩
    have hr : r ∈ b.recRules nt := by
      rw [heq]
      simp
    apply (tryRule_spec hb hk hstep hbuilt hr hcached').mono
    rintro acc' ⟨hcached'', hacc'⟩
    refine ⟨hcached'', ?_⟩
    intro e
    rw [hacc', hacc]
    simp only [List.mem_append, List.mem_singleton, or_and_right, exists_or, exists_eq_left]

/-- A round builds the next height. -/
theorem round_spec {st : State E} (hbuilt : b.Built st.storage k)
    (hcached : Cached st.permutations) :
  Ends IsReturn (fun st' => b.Built st'.storage (k + 1) ∧ Cached st'.permutations)
    (b.round (k + 1) st)
  := by
  rw [round]
  apply Ends.mono (Exits.ends_foldlM (fun pre st' => Cached st'.permutations ∧
    b.Built st'.storage k ∧ ∀ nt ∈ pre, b.Holds st'.storage nt (k + 1))
    ⟨hcached, hbuilt, by simp⟩ _)
  · rintro st' ⟨hcached', hbuilt', hnew⟩
    refine ⟨⟨hbuilt'.known, ?_⟩, hcached'⟩
    intro nt hnt j hpos hj hlist
    by_cases hjk : j = k + 1
    · subst hjk
      apply hnew nt hnt
    · apply hbuilt'.holds nt hnt j hpos (by omega) hlist
  · rintro pre nt post heq st' ⟨hcached', hbuilt', hnew⟩
    have hnt : nt ∈ b.grammar.keys := by
      rw [heq]
      simp
    apply (tryNonTerminal_spec hb hk hstep hbuilt' hcached').mono
    rintro st'' ⟨hcached'', exprs, hexprs, hput⟩
    refine ⟨hcached'', ⟨?_, ?_⟩, ?_⟩
    · intro nt' hnt'
      rw [hput]
      apply isSome_put exprs (hbuilt'.known nt' hnt')
    · intro nt' hnt' j hpos hj hlist
      rw [Holds, hput, find_put_of_ne (.inr (by omega))]
      apply hbuilt'.holds nt' hnt' j hpos hj hlist
    · intro nt' hnt'
      rw [Holds, hput]
      by_cases hne : nt' = nt
      · subst hne
        exact ⟨exprs, find_put_self (hbuilt'.known nt' hnt) exprs, hexprs⟩
      · rw [find_put_of_ne (.inl hne)]
        rcases List.mem_append.mp hnt' with hnt' | hnt'
        · apply hnew nt' hnt'
        · apply absurd (List.mem_singleton.mp hnt') hne

end Round

/-! ### The run -/

theorem exprByHeight_spec (hb : b.Initial) {nt : String} (hnt : nt ∈ b.grammar.keys) :
  ∃ f, b.exprByHeight nt = .ok f ∧
    (b.terminals nt ≠ [] → ∃ exprs, f 1 = some exprs ∧ ∀ e, e ∈ exprs ↔ b.Derives nt 1 e)
  := by
  obtain ⟨exprs, hexprs, hlen, hmem⟩ := Exits.exists_mapM (hb.sybExpr nt)
  rw [exprByHeight, hexprs]
  refine ⟨_, rfl, ?_⟩
  intro hterminals
  have hne : exprs ≠ [] := by
    rw [← List.length_pos_iff, hlen, List.length_pos_iff]
    apply hterminals
  refine ⟨exprs, if_pos ⟨rfl, hne⟩, ?_⟩
  intro e
  rw [hmem, derives_one hb hnt]

/-- The storage is set up with the terminals. -/
theorem init_spec (hb : b.Initial) :
  ∃ storage, b.init = .ok storage ∧ b.Built storage 1
  := by
  rw [← Exits.ends_false, init]
  apply Ends.mono (Exits.ends_foldlM (fun pre storage => ∀ nt ∈ pre, ∃ f,
    b.exprByHeight nt = .ok f ∧ storage nt = some f) (by simp) _)
  · intro storage hstorage
    constructor
    · intro nt hnt
      obtain ⟨f, -, hf⟩ := hstorage nt hnt
      rw [hf]
      rfl
    · intro nt hnt j hpos hj hlist
      obtain rfl : j = 1 := by omega
      obtain ⟨f, hexprs, hf⟩ := hstorage nt hnt
      obtain ⟨f', hexprs', hheld⟩ := exprByHeight_spec hb hnt
      rw [hexprs] at hexprs'
      cases hexprs'
      obtain ⟨exprs, hone, hmem⟩ := hheld (hlist.resolve_left (by omega))
      refine ⟨exprs, ?_, hmem⟩
      rw [Storage.find, hf]
      apply hone
  · intro pre nt post heq storage hstorage
    have hnt : nt ∈ b.grammar.keys := by
      rw [heq]
      simp
    obtain ⟨f, hf, -⟩ := exprByHeight_spec hb hnt
    rw [hf]
    intro nt' hnt'
    by_cases hne : nt' = nt
    · subst hne
      exact ⟨f, hf, Function.update_self ..⟩
    · rw [Function.update_of_ne hne]
      rcases List.mem_append.mp hnt' with hnt' | hnt'
      · apply hstorage nt' hnt'
      · apply absurd (List.mem_singleton.mp hnt') hne

/-- A run whose rounds are all in order is left with a result only. -/
theorem generate_spec (hb : b.Initial) {height : ℕ}
    (hsteps : ∀ j, 1 ≤ j → j < height → (∃ st, b.generate j = .ok st) → b.StepOk (j + 1)) :
  Ends IsReturn (fun st => b.Built st.storage height ∧ Cached st.permutations)
    (b.generate height)
  := by
  have hzero : Ends IsReturn (fun st => b.Built st.storage 1 ∧ Cached st.permutations)
      (b.generate 0) := by
    rw [generate]
    apply Ends.bind (ends_lift (init_spec hb))
    intro storage hbuilt
    refine ⟨hbuilt, ?_⟩
    intro _ _ _ h
    cases h
  induction height with
  | zero =>
      apply hzero.mono
      rintro st ⟨hbuilt, hcached⟩
      refine ⟨⟨hbuilt.known, ?_⟩, hcached⟩
      intro nt hnt j hpos hj
      omega
  | succ height ih =>
      cases height with
      | zero =>
          rw [generate]
          apply hzero.bind
          rintro st ⟨hbuilt, hcached⟩
          apply Ends.bind (ends_lift (hbuilt.exprsOf_spec hb.start le_rfl le_rfl))
          intro exprs hexprs
          apply Ends.bind (Exits.ends_foldlM (fun _ _ => True) trivial _)
          · intro _ _
            exact ⟨hbuilt, hcached⟩
          · intro pre e post heq _ _
            apply check_spec
            apply hb.verified e
            apply (hexprs e).mp
            rw [heq]
            simp
      | succ height =>
          rw [generate]
          apply Ends.bind_of_ok (ih fun j hpos hj => hsteps j hpos (by omega))
          rintro st hst ⟨hbuilt, hcached⟩
          apply round_spec hb (by omega) _ hbuilt hcached
          apply hsteps (height + 1) (by omega) (by omega) ⟨st, hst⟩

/-- Enumeration by height is complete where every step is in order, and the heights of subtrees
that it needs are listed exactly where they are covered. -/
theorem completes_of_steps (hb : b.Initial) (height : ℕ)
    (hsteps : ∀ j, 1 ≤ j → j < height → (∃ st, b.generate j = .ok st) → b.StepOk (j + 1)) :
  b.Completes height ∧ ∀ maxH numArgs, Yields maxH numArgs ↔ Covered maxH numArgs
  := by
  refine ⟨?_, yields_iff⟩
  have h := generate_spec hb hsteps
  cases hrun : b.generate height with
  | error x =>
      rw [hrun] at h
      obtain ⟨e, rfl⟩ := h
      exact .inl ⟨e, hrun⟩
  | ok st =>
      rw [hrun] at h
      refine .inr ⟨st, hrun, ?_⟩
      intro nt hnt j hj e he
      have hpos := derives_pos he
      obtain ⟨exprs, hfind, hmem⟩ : b.Holds st.storage nt j := by
        apply h.1.holds nt hnt j hpos hj
        by_cases hone : 2 ≤ j
        · exact .inl hone
        · obtain rfl : j = 1 := by omega
          obtain ⟨r, hr, -⟩ := (derives_one hb hnt).mp he
          exact .inr (List.ne_nil_of_mem hr)
      exact ⟨exprs, hfind, (hmem e).mpr he⟩

/-! ### Examples -/

/-- A problem with the given productions of its start symbol, which nothing is verified to
solve. -/
def startProblem (rules : List Rule) : BVEnum (Term 64) where
  start := "Start"
  grammar := [("Start", ⟨"x", []⟩ :: rules)]
  getSybExpr := fun term => .ok (.symbol term)
  dispatch := fun name args => OpDispatcher.halfDispatcher.dispatch name args true false
  verify := fun _ => .ok false

theorem rules_startProblem {rules : List Rule} {nt : String} {r : Rule}
    (h : r ∈ (startProblem rules).grammar.rules nt) :
  nt = "Start" ∧ (r = ⟨"x", []⟩ ∨ r ∈ rules)
  := by
  by_cases hnt : nt = "Start"
  · subst hnt
    exact ⟨rfl, List.mem_cons.mp h⟩
  · rw [Grammar.rules, startProblem, List.lookup_cons, beq_false_of_ne hnt] at h
    cases h

theorem completes_startProblem :
  (startProblem [⟨"bvnot", ["Start"]⟩, ⟨"bvadd", ["Start", "Start"]⟩]).Completes 32 ∧
    ∀ maxH numArgs, Yields maxH numArgs ↔ Covered maxH numArgs
  := by
  apply completes_of_steps
  · constructor
    · simp [terminals, startProblem, Grammar.rules]
    · intro nt r hr hunit
      obtain ⟨-, rfl | hr⟩ := rules_startProblem hr
      · apply absurd hunit.2 (by decide)
      · rcases List.mem_pair.mp hr with rfl | rfl
        · cases hunit.1
        · cases hunit.1
    · intro nt r _
      exact ⟨_, rfl⟩
    · intro e _
      exact ⟨_, rfl⟩
  · intro j hpos hj _
    have hrec : ∀ {nt r}, r ∈ (startProblem [⟨"bvnot", ["Start"]⟩,
        ⟨"bvadd", ["Start", "Start"]⟩]).recRules nt →
        r = ⟨"bvnot", ["Start"]⟩ ∨ r = ⟨"bvadd", ["Start", "Start"]⟩ := by
      intro nt r hr
      obtain ⟨hr, hargs⟩ := mem_recRules.mp hr
      obtain ⟨-, rfl | hr⟩ := rules_startProblem hr
      · apply absurd rfl hargs
      · apply List.mem_pair.mp hr
    constructor
    · intro nt r hr
      rcases hrec hr with rfl | rfl
      · exact .inl rfl
      · exact .inr (.inr ⟨rfl, by omega⟩)
    · intro nt r hr s hs
      rcases hrec hr with rfl | rfl
      · obtain rfl := List.mem_singleton.mp hs
        simp [terminals, startProblem, Grammar.rules]
      · obtain rfl : s = "Start" := by simpa using hs
        simp [terminals, startProblem, Grammar.rules]
    · intro nt r hr hs es _ hall
      rcases hrec hr with rfl | rfl
      · obtain ⟨a, rfl⟩ := List.length_eq_one_iff.mp hall.2.1
        exact ⟨_, rfl⟩
      · obtain ⟨a, c, rfl⟩ := List.length_eq_two.mp hall.2.1
        exact ⟨_, rfl⟩
    · intro e _
      exact ⟨_, rfl⟩

theorem derives_ite {i j l k : ℕ} {a c d : Term 64}
    (ha : (startProblem [⟨"ite", ["Start", "Start", "Start"]⟩]).Derives "Start" i a)
    (hc : (startProblem [⟨"ite", ["Start", "Start", "Start"]⟩]).Derives "Start" j c)
    (hd : (startProblem [⟨"ite", ["Start", "Start", "Start"]⟩]).Derives "Start" l d)
    (hle : ∀ h ∈ [i, j, l], h ≤ k) (hmax : k ∈ [i, j, l]) :
  (startProblem [⟨"ite", ["Start", "Start", "Start"]⟩]).Derives "Start" (k + 1)
    (.app "ite" [a, c, d])
  := by
  apply Derives.node (r := ⟨"ite", ["Start", "Start", "Start"]⟩)
    (List.mem_cons_of_mem _ List.mem_cons_self) (by simp) (show [i, j, l].length = 3 from rfl)
    (show [a, c, d].length = 3 from rfl) _ hle hmax rfl
  simp [ha, hc, hd]

/-- The conditional of two expressions of height 2 and one of height 1 is not found among those
of height 3, and an operand without terminals ends the run in an exception. -/
theorem not_completes :
  ¬ (startProblem [⟨"ite", ["Start", "Start", "Start"]⟩]).Completes 3 ∧
    ¬ (startProblem [⟨"bvnot", ["A"]⟩]).Completes 2 ∧ ¬ Yields 2 3
  := by
  refine ⟨?_, ?_, not_yields_of_three le_rfl⟩
  · let x : Term 64 := .symbol "x"
    let t : Term 64 := .app "ite" [x, x, x]
    have hx : (startProblem [⟨"ite", ["Start", "Start", "Start"]⟩]).Derives "Start" 1 x :=
      .terminal (r := ⟨"x", []⟩) List.mem_cons_self rfl (fun hunit => absurd hunit.2 (by decide))
        rfl
    have ht : (startProblem [⟨"ite", ["Start", "Start", "Start"]⟩]).Derives "Start" 2 t :=
      derives_ite hx hx hx (by simp) (by simp)
    have hrun : ((startProblem [⟨"ite", ["Start", "Start", "Start"]⟩]).generate 3).map
        (fun st => st.storage.find "Start" 3) = .ok (some [.app "ite" [x, x, t],
          .app "ite" [x, t, x], .app "ite" [x, t, t], .app "ite" [t, x, x],
          .app "ite" [t, x, t], .app "ite" [t, t, t]]) := rfl
    rintro (⟨e, h⟩ | ⟨st, h, hall⟩)
    · rw [h] at hrun
      cases hrun
    · rw [h] at hrun
      obtain ⟨exprs, hfind, hmem⟩ :=
        hall "Start" (by decide) 3 le_rfl (.app "ite" [t, t, x])
        (derives_ite ht ht hx (by simp) (by simp))
      have heq : st.storage.find "Start" 3 = _ := Except.ok.inj hrun
      rw [hfind] at heq
      cases heq
      simp [x, t] at hmem
  · rintro (⟨e, h⟩ | ⟨st, h, -⟩)
    · have hrun : (startProblem [⟨"bvnot", ["A"]⟩]).generate 2 = .error (.threw .nullPointer) := rfl
      rw [hrun] at h
      cases h
    · have hrun : (startProblem [⟨"bvnot", ["A"]⟩]).generate 2 = .error (.threw .nullPointer) := rfl
      rw [hrun] at h
      cases h

end BVEnum

end DryadSynth
