import DryadSynth.General.DnC
import DryadSynth.Library.Offers

/-!
# Elimination of unit productions

A production that is a single nonterminal is replaced by the productions of that nonterminal when
the grammar of a function to synthesise has been read.  `replaceNonTerminal` does so for one
nonterminal and, below it, for those that its productions lead to; `exitSynthfun` calls it for one
after the other.

A run that ends leaves the language as it is, `exitSynthfun_language`.  The loop goes on to the
next index after it has put the productions of a nonterminal in, and if these are none the
production that moved up is passed over (`passes`).  `SkipsNone` says of the grammar that this is
never a single nonterminal, where the nonterminals before have got all that they offer; if it does
not hold, a single nonterminal is passed over (`passesKeys_of_not_skipsNone`).
-/

namespace Sygus

open DnC (Rule)

/-- The productions of the nonterminals, in the order in which they were declared. -/
abbrev Grammar := List (String × List Rule)

namespace Grammar

def keys (G : Grammar) : List String := G.map Prod.fst

/-- The productions of a nonterminal. -/
def rules (G : Grammar) (N : String) : List Rule := (G.lookup N).getD []

/-- The production is a single nonterminal. -/
def IsUnit (G : Grammar) (r : Rule) : Prop := r.args = [] ∧ r.termSyb ∈ G.keys

instance (G : Grammar) (r : Rule) : Decidable (G.IsUnit r) := inferInstanceAs (Decidable (_ ∧ _))

/-- `grammarRules.replace(N, l)` -/
def replace (G : Grammar) (N : String) (l : List Rule) : Grammar :=
  G.map fun g => if g.1 = N then (N, l) else g

mutual

/-- `replaceNonTerminal`, with at most `n` nested calls and iterations.  The parents are there
while the productions of a nonterminal are replaced, the last one comes first. -/
def replaceNonTerminal (G : Grammar) : ℕ → List String → String → Option (List Rule)
  | 0, _, _ => none
  | n + 1, parents, N =>
      if N ∈ parents then some []
      else
        match G.lookup N with
        | none => none
        | some copyTerminal => replaceFrom G n (N :: parents) 0 copyTerminal

/-- The loop of `replaceNonTerminal` from index `i` on. -/
def replaceFrom (G : Grammar) : ℕ → List String → ℕ → List Rule → Option (List Rule)
  | 0, _, _, _ => none
  | n + 1, parents, i, copyTerminal =>
      match copyTerminal[i]? with
      | none => some copyTerminal
      | some r =>
          if G.IsUnit r then
            match replaceNonTerminal G n parents r.termSyb with
            | none => none
            | some returnList =>
                replaceFrom G n parents (i + 1)
                  (returnList.foldl (fun l s => l.insertIdx i s) (copyTerminal.eraseIdx i))
          else replaceFrom G n parents (i + 1) copyTerminal

end

/-- The first loop of `exitSynthfun`. -/
def replaceKeys (n : ℕ) : List String → Grammar → Option Grammar
  | [], G => some G
  | key :: keys, G =>
      match replaceNonTerminal G n [] key with
      | none => none
      | some l => replaceKeys n keys (G.replace key l)

def exitSynthfun (n : ℕ) (G : Grammar) : Option Grammar := replaceKeys n G.keys G

mutual

/-- The call comes to a single nonterminal, and passes over another one. -/
def passes (G : Grammar) : ℕ → List String → String → Bool
  | 0, _, _ => false
  | n + 1, parents, N =>
      if N ∈ parents then false
      else
        match G.lookup N with
        | none => false
        | some copyTerminal => passesFrom G n (N :: parents) 0 copyTerminal

/-- The loop from index `i` on does. -/
def passesFrom (G : Grammar) : ℕ → List String → ℕ → List Rule → Bool
  | 0, _, _, _ => false
  | n + 1, parents, i, copyTerminal =>
      match copyTerminal[i]? with
      | none => false
      | some r =>
          if G.IsUnit r then
            passes G n parents r.termSyb ||
              match replaceNonTerminal G n parents r.termSyb with
              | none => false
              | some returnList =>
                  let l := returnList.foldl (fun l s => l.insertIdx i s) (copyTerminal.eraseIdx i)
                  l[i]?.any (fun s => G.IsUnit s) || passesFrom G n parents (i + 1) l
          else passesFrom G n parents (i + 1) copyTerminal

end

/-- One of the calls of `exitSynthfun` does. -/
def passesKeys (n : ℕ) : List String → Grammar → Bool
  | [], _ => false
  | key :: keys, G =>
      passes G n [] key ||
        match replaceNonTerminal G n [] key with
        | none => false
        | some l => passesKeys n keys (G.replace key l)

/-! ### The language -/

/-- The trees a symbol generates.  A symbol that is no nonterminal stands for itself. -/
inductive Generates (G : Grammar) : String → ASTGeneral → Prop
  | terminal {s} : s ∉ G.keys → Generates G s (.leaf s)
  | unit {N r t} : r ∈ G.rules N → G.IsUnit r → Generates G r.termSyb t → Generates G N t
  | node {N r l} : r ∈ G.rules N → ¬G.IsUnit r → l.length = r.args.length →
      (∀ p ∈ r.args.zip l, Generates G p.1 p.2) → Generates G N (.mk r.termSyb l)

/-- The single nonterminals are gone, and the language is the same. -/
structure Eliminated (G G' : Grammar) : Prop where
  units : ∀ N ∈ G.keys, ∀ r ∈ G'.rules N, ¬G'.IsUnit r
  language : ∀ s t, G'.Generates s t ↔ G.Generates s t

/-! ### Grammars and their updates -/

theorem rules_replace_self {G : Grammar} {N : String} (hN : N ∈ G.keys) (l : List Rule) :
  (G.replace N l).rules N = l
  := by
  induction G with
  | nil => cases hN
  | cons g G ih =>
      obtain ⟨M, k⟩ := g
      by_cases hM : M = N
      · subst hM
        simp [replace, rules]
      · have hN' : N ∈ keys G := by
          simpa [keys, Ne.symm hM] using hN
        have h := ih hN'
        simp only [replace, rules, List.map_cons, if_neg hM] at h ⊢
        rw [List.lookup_cons, beq_false_of_ne (Ne.symm hM)]
        apply h

theorem rules_replace_of_ne {N M : String} (G : Grammar) (h : M ≠ N) (l : List Rule) :
  (G.replace N l).rules M = G.rules M
  := by
  induction G with
  | nil => rfl
  | cons g G ih =>
      obtain ⟨K, k⟩ := g
      simp only [replace, rules, List.map_cons] at ih ⊢
      by_cases hK : K = N
      · subst hK
        rw [if_pos rfl, List.lookup_cons, List.lookup_cons, beq_false_of_ne h]
        apply ih
      · rw [if_neg hK, List.lookup_cons, List.lookup_cons]
        cases M == K with
        | true => rfl
        | false => exact ih

@[simp]
theorem keys_replace (G : Grammar) (N : String) (l : List Rule) :
  (G.replace N l).keys = G.keys
  := by
  rw [keys, keys, replace, List.map_map]
  refine List.map_congr_left fun g _ => ?_
  by_cases hg : g.1 = N
  · simp [hg]
  · simp [hg]

@[simp]
theorem isUnit_replace (G : Grammar) (N : String) (l : List Rule) (r : Rule) :
  (G.replace N l).IsUnit r ↔ G.IsUnit r
  := by
  rw [IsUnit, IsUnit, keys_replace]

theorem lookup_eq_some {G : Grammar} {N : String} (hN : N ∈ G.keys) :
  G.lookup N = some (G.rules N)
  := by
  induction G with
  | nil => cases hN
  | cons g G ih =>
      obtain ⟨M, k⟩ := g
      by_cases hM : N = M
      · subst hM
        simp [rules]
      · have hN' : N ∈ keys G := by
          simpa [keys, hM] using hN
        have h := ih hN'
        simp only [rules, List.lookup_cons, beq_false_of_ne hM] at h ⊢
        apply h

/-! ### What a list of productions offers -/

/-- A nonterminal leads to another one by a production. -/
def UnitStep (G : Grammar) (N M : String) : Prop :=
  ∃ r ∈ G.rules N, G.IsUnit r ∧ r.termSyb = M

/-- A production that is not a single nonterminal. -/
def Own (G : Grammar) (N : String) (r : Rule) : Prop := r ∈ G.rules N ∧ ¬G.IsUnit r

/-- The production is reached from the nonterminal by single nonterminals that are no parents. -/
abbrev OffersRule (G : Grammar) (parents : List String) (N : String) (r : Rule) : Prop :=
  Offers G.UnitStep G.Own {M | M ∈ parents} N r

/-- The production is in the list, or offered by a single nonterminal of the list. -/
def ListOffers (G : Grammar) (parents : List String) (l : List Rule) (r : Rule) : Prop :=
  (r ∈ l ∧ ¬G.IsUnit r) ∨ ∃ u ∈ l, G.IsUnit u ∧ G.OffersRule parents u.termSyb r

theorem setOf_mem_cons (N : String) (parents : List String) :
  {M | M ∈ N :: parents} = insert N {M | M ∈ parents}
  := by
  ext M
  simp

theorem OffersRule.mono {G : Grammar} {P Q : List String} {N : String} {r : Rule} (hPQ : P ⊆ Q)
    (h : G.OffersRule Q N r) :
  G.OffersRule P N r
  := Offers.mono (fun _ hM => hPQ hM) h

theorem ListOffers.mono {G : Grammar} {P Q : List String} {l : List Rule} {r : Rule} (hPQ : P ⊆ Q)
    (h : G.ListOffers Q l r) :
  G.ListOffers P l r
  := by
  rcases h with h | ⟨u, hu, hunit, h⟩
  · exact .inl h
  · exact .inr ⟨u, hu, hunit, h.mono hPQ⟩

theorem listOffers_append {G : Grammar} {P : List String} {l k : List Rule} {r : Rule} :
  G.ListOffers P (l ++ k) r ↔ G.ListOffers P l r ∨ G.ListOffers P k r
  := by
  simp only [ListOffers, List.mem_append, or_and_right, exists_or]
  apply or_or_or_comm ..

theorem listOffers_reverse {G : Grammar} {P : List String} {l : List Rule} {r : Rule} :
  G.ListOffers P l.reverse r ↔ G.ListOffers P l r
  := by
  simp only [ListOffers, List.mem_reverse]

theorem listOffers_unit {G : Grammar} {P : List String} {u r : Rule} (hu : G.IsUnit u) :
  G.ListOffers P [u] r ↔ G.OffersRule P u.termSyb r
  := by
  constructor
  · rintro (⟨hr, hnot⟩ | ⟨v, hv, -, h⟩)
    · rw [List.mem_singleton] at hr
      exact absurd (hr ▸ hu) hnot
    · rw [List.mem_singleton] at hv
      exact hv ▸ h
  · intro h
    exact .inr ⟨u, List.mem_singleton_self u, hu, h⟩

/-- The parents of the productions of a nonterminal include it. -/
theorem offersRule_iff {G : Grammar} {P : List String} {N : String} {r : Rule} :
  G.OffersRule P N r ↔ N ∉ P ∧ G.ListOffers (N :: P) (G.rules N) r
  := by
  refine Offers.iff_first_step.trans ?_
  rw [← setOf_mem_cons]
  constructor
  · rintro ⟨hN, hown | ⟨M, ⟨u, hu, hunit, rfl⟩, h⟩⟩
    · exact ⟨hN, .inl hown⟩
    · exact ⟨hN, .inr ⟨u, hu, hunit, h⟩⟩
  · rintro ⟨hN, hown | ⟨u, hu, hunit, h⟩⟩
    · exact ⟨hN, .inl hown⟩
    · exact ⟨hN, .inr ⟨u.termSyb, ⟨u, hu, hunit, rfl⟩, h⟩⟩

theorem offersRule_of_list {G : Grammar} {P : List String} {N : String} {r : Rule} (hN : N ∉ P)
    (h : G.ListOffers P (G.rules N) r) :
  G.OffersRule P N r
  := by
  rcases h with h | ⟨u, hu, hunit, h⟩
  · exact .own hN h
  · exact .step hN ⟨u, hu, hunit, rfl⟩ h

/-! ### A run keeps what is offered -/

theorem insertIdx_append_length (d e : List Rule) (s : Rule) :
  (d ++ e).insertIdx d.length s = d ++ s :: e
  := by
  induction d with
  | nil => exact List.insertIdx_zero
  | cons r d ih => simp [ih]

theorem foldl_insertIdx (d e l : List Rule) :
  l.foldl (fun k s => k.insertIdx d.length s) (d ++ e) = d ++ (l.reverse ++ e)
  := by
  induction l generalizing e with
  | nil => rfl
  | cons s l ih =>
      rw [List.foldl_cons, insertIdx_append_length, ih, List.reverse_cons, List.append_assoc]
      rfl

/-- One iteration at a single nonterminal: the list it stands in after the iteration. -/
theorem insert_returnList (d e returnList : List Rule) (u : Rule) :
  returnList.foldl (fun l s => l.insertIdx d.length s) ((d ++ u :: e).eraseIdx d.length)
    = d ++ (returnList.reverse ++ e)
  := by
  have herase : (d ++ u :: e).eraseIdx d.length = d ++ e := by
    simp [List.eraseIdx_append_of_length_le]
  rw [herase, foldl_insertIdx]

theorem split_at {l : List Rule} {i : ℕ} {u : Rule} (h : l[i]? = some u) :
  ∃ d e, l = d ++ u :: e ∧ d.length = i
  := by
  obtain ⟨hi, hu⟩ := List.getElem?_eq_some_iff.mp h
  refine ⟨l.take i, l.drop (i + 1), ?_, ?_⟩
  · rw [← hu, List.cons_getElem_drop_succ, List.take_append_drop]
  · rw [List.length_take]
    omega

/-- What a call and a loop return offers what was offered.  The parents may be fewer for what is
returned, as they are for the caller. -/
theorem run_offers (G : Grammar) (n : ℕ) :
  (∀ P N R, G.replaceNonTerminal n P N = some R →
    (∀ r, G.OffersRule P N r → G.ListOffers (N :: P) R r)
    ∧ ∀ P' ⊆ P, ∀ r, G.ListOffers P' R r → G.OffersRule P' N r)
  ∧ (∀ P i l R, G.replaceFrom n P i l = some R →
    (∀ r, G.ListOffers P l r → G.ListOffers P R r)
    ∧ ∀ P' ⊆ P, ∀ r, G.ListOffers P' R r → G.ListOffers P' l r)
  := by
  induction n with
  | zero =>
      constructor
      · intro P N R h
        cases h
      · intro P i l R h
        cases h
  | succ n ih =>
      obtain ⟨ihcall, ihloop⟩ := ih
      constructor
      · intro P N R h
        rw [replaceNonTerminal] at h
        split_ifs at h with hN
        · obtain rfl := (Option.some.inj h)
          constructor
          · intro r hr
            apply absurd hN hr.notMem
          · rintro P' - r (⟨hr, -⟩ | ⟨u, hu, -⟩)
            · cases hr
            · cases hu
        · split at h
          · cases h
          · rename_i copyTerminal hlookup
            have hrules : G.rules N = copyTerminal := by
              rw [rules, hlookup, Option.getD_some]
            obtain ⟨hcomplete, hsound⟩ := ihloop _ _ _ _ h
            rw [← hrules] at hcomplete hsound
            constructor
            · intro r hr
              apply hcomplete r (offersRule_iff.mp hr).2
            · intro P' hP' r hr
              have hlist := hsound P' (fun _ hM => List.mem_cons_of_mem N (hP' hM)) r hr
              exact offersRule_of_list (fun hN' => hN (hP' hN')) hlist
      · intro P i l R h
        rw [replaceFrom] at h
        split at h
        · obtain rfl := (Option.some.inj h)
          exact ⟨fun _ hr => hr, fun _ _ _ hr => hr⟩
        · rename_i u hu
          split_ifs at h with hunit
          · split at h
            · cases h
            · rename_i returnList hcall
              obtain ⟨d, e, rfl, rfl⟩ := split_at hu
              rw [insert_returnList] at h
              obtain ⟨hcomplete, hsound⟩ := ihloop _ _ _ _ h
              obtain ⟨hcall₁, hcall₂⟩ := ihcall _ _ _ hcall
              have hsplit : d ++ u :: e = d ++ ([u] ++ e) := rfl
              simp only [hsplit, listOffers_append, listOffers_reverse, listOffers_unit hunit]
                at hcomplete hsound ⊢
              constructor
              · rintro r (hr | hr | hr)
                · apply hcomplete r (.inl hr)
                · have hmono := (hcall₁ r hr).mono (List.subset_cons_self _ _)
                  apply hcomplete r (.inr (.inl hmono))
                · apply hcomplete r (.inr (.inr hr))
              · intro P' hP' r hr
                rcases hsound P' hP' r hr with hr | hr | hr
                · exact .inl hr
                · exact .inr (.inl (hcall₂ P' hP' r hr))
                · exact .inr (.inr hr)
          · apply ihloop _ _ _ _ h

/-! ### The language of a run that ends -/

section Replace

variable {G : Grammar} {N : String} {l : List Rule}

theorem unitStep_replace {M : String} (hM : M ≠ N) (M' : String) :
  G.UnitStep M M' ↔ (G.replace N l).UnitStep M M'
  := by
  simp only [UnitStep, rules_replace_of_ne G hM, isUnit_replace]

theorem own_replace {M : String} (hM : M ≠ N) (r : Rule) :
  G.Own M r ↔ (G.replace N l).Own M r
  := by
  simp only [Own, rules_replace_of_ne G hM, isUnit_replace]

/-- Without `N`, the productions offer the same before and after those of `N` are replaced. -/
theorem listOffers_replace (k : List Rule) (r : Rule) :
  (G.replace N l).ListOffers [N] k r ↔ G.ListOffers [N] k r
  := by
  have hmem : N ∈ {M | M ∈ [N]} := List.mem_singleton_self N
  have hoffers : ∀ M, (G.replace N l).OffersRule [N] M r ↔ G.OffersRule [N] M r := by
    intro M
    constructor
    · exact Offers.of_forbidden (fun _ hM _ => (unitStep_replace hM _).symm)
        (fun _ hM _ => (own_replace hM _).symm) hmem
    · exact Offers.of_forbidden (fun _ hM _ => unitStep_replace hM _)
        (fun _ hM _ => own_replace hM _) hmem
  simp only [ListOffers, isUnit_replace, hoffers]

variable {n : ℕ} (hN : N ∈ G.keys) (hrun : G.replaceNonTerminal n [] N = some l)

include hN hrun

theorem offers_replaced (r : Rule) :
  (G.replace N l).OffersRule [] N r ↔ G.OffersRule [] N r
  := by
  obtain ⟨hcomplete, hsound⟩ := (G.run_offers n).1 _ _ _ hrun
  rw [offersRule_iff, rules_replace_self hN, listOffers_replace]
  constructor
  · rintro ⟨-, hr⟩
    apply hsound [] (List.Subset.refl _) r (hr.mono (List.nil_subset _))
  · intro hr
    exact ⟨hr.notMem, hcomplete r hr⟩

theorem offers_replace (M : String) (r : Rule) :
  (G.replace N l).OffersRule [] M r ↔ G.OffersRule [] M r
  := by
  have hoffers := offers_replaced hN hrun
  constructor
  · exact Offers.of_update (fun _ hM _ => (unitStep_replace hM _).symm)
      (fun _ hM _ => (own_replace hM _).symm) fun b => (hoffers b).mp
  · exact Offers.of_update (fun _ hM _ => unitStep_replace hM _)
      (fun _ hM _ => own_replace hM _) fun b => (hoffers b).mpr

end Replace

/-- A tree is generated by a symbol for itself, or by a production that the symbol offers. -/
theorem generates_iff {G : Grammar} {s : String} {t : ASTGeneral} :
  G.Generates s t
    ↔ (s ∉ G.keys ∧ t = .leaf s) ∨ ∃ r, G.OffersRule [] s r ∧ ∃ l, t = .mk r.termSyb l
      ∧ l.length = r.args.length ∧ ∀ p ∈ r.args.zip l, G.Generates p.1 p.2
  := by
  constructor
  · intro h
    induction h with
    | terminal hs => exact .inl ⟨hs, rfl⟩
    | @unit N u t hu hunit _ ih =>
        rcases ih with ⟨hkey, -⟩ | ⟨r, hr, h⟩
        · apply absurd hunit.2 hkey
        · exact .inr ⟨r, .step List.not_mem_nil ⟨u, hu, hunit, rfl⟩ hr, h⟩
    | @node N r l hr hunit hlen h _ =>
        exact .inr ⟨r, .own List.not_mem_nil ⟨hr, hunit⟩, l, rfl, hlen, h⟩
  · rintro (⟨hs, rfl⟩ | ⟨r, hr, l, rfl, hlen, h⟩)
    · exact .terminal hs
    · induction hr with
      | own _ hr => exact .node hr.1 hr.2 hlen h
      | step _ hstep _ ih =>
          obtain ⟨u, hu, hunit, rfl⟩ := hstep
          exact .unit hu hunit (ih hlen h)

/-- The language depends on the names of the nonterminals and on what they offer only. -/
theorem generates_congr {G G' : Grammar} (hkeys : G'.keys = G.keys)
    (hoffers : ∀ N r, G'.OffersRule [] N r ↔ G.OffersRule [] N r) (s : String) (t : ASTGeneral) :
  G'.Generates s t ↔ G.Generates s t
  := by
  induction t generalizing s with
  | mk node children ih =>
      have hargs : ∀ (r : Rule) l, ASTGeneral.mk node children = .mk r.termSyb l →
          ((∀ p ∈ r.args.zip l, G'.Generates p.1 p.2)
            ↔ ∀ p ∈ r.args.zip l, G.Generates p.1 p.2) := by
        rintro r l heq
        obtain ⟨-, rfl⟩ := ASTGeneral.mk.inj heq
        exact forall₂_congr fun p hp => ih p.2 (List.of_mem_zip hp).2 p.1
      rw [generates_iff, generates_iff, hkeys]
      refine or_congr_right (exists_congr fun r => and_congr (hoffers s r) ?_)
      exact exists_congr fun l => and_congr_right fun heq => and_congr_right fun _ => hargs r l heq

theorem replaceKeys_spec {n : ℕ} {keys : List String} {G G' : Grammar} (hsub : keys ⊆ G.keys)
    (hrun : replaceKeys n keys G = some G') :
  G'.keys = G.keys ∧ ∀ s t, G'.Generates s t ↔ G.Generates s t
  := by
  induction keys generalizing G with
  | nil =>
      obtain rfl := Option.some.inj hrun
      exact ⟨rfl, fun _ _ => Iff.rfl⟩
  | cons key keys ih =>
      rw [replaceKeys] at hrun
      split at hrun
      · cases hrun
      · rename_i l hcall
        rw [List.cons_subset] at hsub
        obtain ⟨hkey, hsub⟩ := hsub
        have hkeys := keys_replace G key l
        obtain ⟨hkeys', hlang⟩ := ih (by rwa [hkeys]) hrun
        refine ⟨hkeys'.trans hkeys, fun s t => (hlang s t).trans ?_⟩
        apply generates_congr hkeys (offers_replace hkey hcall) s t

/-- Whatever the order of the productions and wherever a cycle is cut, a run that ends leaves the
language of every symbol as it is. -/
theorem exitSynthfun_language {n : ℕ} {G G' : Grammar} (hrun : exitSynthfun n G = some G')
    (s : String) (t : ASTGeneral) :
  G'.Generates s t ↔ G.Generates s t
  := (replaceKeys_spec (List.Subset.refl _) hrun).2 s t

/-! ### More nested calls and iterations -/

theorem run_succ (G : Grammar) (n : ℕ) :
  (∀ P N R, G.replaceNonTerminal n P N = some R → G.replaceNonTerminal (n + 1) P N = some R)
  ∧ (∀ P i l R, G.replaceFrom n P i l = some R → G.replaceFrom (n + 1) P i l = some R)
  := by
  induction n with
  | zero =>
      constructor
      · intro P N R h
        cases h
      · intro P i l R h
        cases h
  | succ n ih =>
      obtain ⟨ihcall, ihloop⟩ := ih
      constructor
      · intro P N R h
        rw [replaceNonTerminal] at h ⊢
        split_ifs at h ⊢ with hN
        · apply h
        · split at h
          · cases h
          · apply ihloop _ _ _ _ h
      · intro P i l R h
        rw [replaceFrom] at h ⊢
        split at h
        · apply h
        · split_ifs at h ⊢ with hunit
          · split at h
            · cases h
            · rename_i returnList hcall
              rw [ihcall _ _ _ hcall]
              apply ihloop _ _ _ _ h
          · apply ihloop _ _ _ _ h

theorem replaceNonTerminal_mono {G : Grammar} {n m : ℕ} {P : List String} {N : String}
    {R : List Rule} (hnm : n ≤ m) (h : G.replaceNonTerminal n P N = some R) :
  G.replaceNonTerminal m P N = some R
  := by
  induction m, hnm using Nat.le_induction with
  | base => exact h
  | succ m _ ih => exact (G.run_succ m).1 _ _ _ ih

theorem replaceFrom_mono {G : Grammar} {n m : ℕ} {P : List String} {i : ℕ} {l R : List Rule}
    (hnm : n ≤ m) (h : G.replaceFrom n P i l = some R) :
  G.replaceFrom m P i l = some R
  := by
  induction m, hnm using Nat.le_induction with
  | base => exact h
  | succ m _ ih => exact (G.run_succ m).2 _ _ _ _ ih

theorem replaceKeys_mono {n m : ℕ} (hnm : n ≤ m) {keys : List String} {G G' : Grammar}
    (h : replaceKeys n keys G = some G') :
  replaceKeys m keys G = some G'
  := by
  induction keys generalizing G with
  | nil => exact h
  | cons key keys ih =>
      rw [replaceKeys] at h ⊢
      split at h
      · cases h
      · rename_i l hcall
        rw [replaceNonTerminal_mono hnm hcall]
        apply ih h

/-! ### Grammars in which no single nonterminal is passed over -/

/-- A nonterminal that is not done leads to another one by a production. -/
def UnitStepAfter (G : Grammar) (D : List String) (N M : String) : Prop := N ∉ D ∧ G.UnitStep N M

/-- A nonterminal that is done has all that it offers for its own. -/
def OwnAfter (G : Grammar) (D : List String) (N : String) (r : Rule) : Prop :=
  if N ∈ D then G.OffersRule [] N r else G.Own N r

/-- What a nonterminal offers once those of `D` are done. -/
abbrev OffersAfter (G : Grammar) (D parents : List String) (N : String) (r : Rule) : Prop :=
  Offers (G.UnitStepAfter D) (G.OwnAfter D) {M | M ∈ parents} N r

/-- Below the nonterminal, what is passed over is no single nonterminal: a production directly after
one whose nonterminal offers nothing without the parents.  The nonterminals of `D` are done. -/
inductive SkipsNone (G : Grammar) (D : List String) : List String → String → Prop
  | cut {P N} : N ∈ P → SkipsNone G D P N
  | done {P N} : N ∈ D → SkipsNone G D P N
  | walk {P N} : (∀ u ∈ G.rules N, G.IsUnit u → SkipsNone G D (N :: P) u.termSyb) →
      (G.rules N).IsChain (fun u v => G.IsUnit u → G.IsUnit v →
        ∃ r, G.OffersAfter D (N :: P) u.termSyb r) →
      SkipsNone G D P N

/-- Below the nonterminals, one after the other. -/
def SkipsNoneInTurn (G : Grammar) : List String → List String → Prop
  | _, [] => True
  | D, key :: keys => G.SkipsNone D [] key ∧ SkipsNoneInTurn G (key :: D) keys

theorem offersAfter_nil {G : Grammar} {P : List String} {N : String} {r : Rule} :
  G.OffersAfter [] P N r ↔ G.OffersRule P N r
  := by
  have hstep : G.UnitStepAfter [] = G.UnitStep := by
    ext N M
    simp [UnitStepAfter]
  have hown : G.OwnAfter [] = G.Own := by
    ext N r
    simp [OwnAfter]
  rw [OffersAfter, hstep, hown]

/-- The call ends and returns no single nonterminal. -/
def Clears (G : Grammar) (P : List String) (N : String) : Prop :=
  ∃ n R, G.replaceNonTerminal n P N = some R ∧ ∀ r ∈ R, ¬G.IsUnit r

/-- The loop ends, and leaves no single nonterminal, if it starts at `rest`. -/
def LoopClears (G : Grammar) (P : List String) (done rest : List Rule) : Prop :=
  ∃ n R, G.replaceFrom n P done.length (done ++ rest) = some R ∧ ∀ r ∈ R, ¬G.IsUnit r

theorem replaceFrom_of_not_isUnit {G : Grammar} {P : List String} {n : ℕ} {d e : List Rule}
    {r : Rule} (hr : ¬G.IsUnit r) :
  G.replaceFrom (n + 1) P d.length (d ++ r :: e)
    = G.replaceFrom n P (d ++ [r]).length (d ++ [r] ++ e)
  := by
  rw [replaceFrom]
  simp [hr]

theorem replaceFrom_of_isUnit {G : Grammar} {P : List String} {n : ℕ} {d e R : List Rule}
    {u : Rule} (hu : G.IsUnit u) (hcall : G.replaceNonTerminal n P u.termSyb = some R) :
  G.replaceFrom (n + 1) P d.length (d ++ u :: e)
    = G.replaceFrom n P (d.length + 1) (d ++ (R.reverse ++ e))
  := by
  have hget : (d ++ u :: e)[d.length]? = some u := by
    simp
  rw [replaceFrom, hget]
  simp only [if_pos hu, hcall, insert_returnList]

theorem replaceFrom_end {G : Grammar} {P : List String} {n i : ℕ} {l : List Rule}
    (h : l.length ≤ i) :
  G.replaceFrom (n + 1) P i l = some l
  := by
  rw [replaceFrom, List.getElem?_eq_none h]

namespace LoopClears

variable {G : Grammar} {P : List String} {d e l : List Rule} {r u : Rule}

theorem nil (hd : ∀ r ∈ d, ¬G.IsUnit r) :
  G.LoopClears P d []
  := by
  rw [LoopClears, List.append_nil]
  exact ⟨1, d, replaceFrom_end le_rfl, hd⟩

theorem cons_iff (hr : ¬G.IsUnit r) :
  G.LoopClears P d (r :: e) ↔ G.LoopClears P (d ++ [r]) e
  := by
  constructor
  · rintro ⟨n, R, hrun, hR⟩
    cases n with
    | zero => cases hrun
    | succ n => exact ⟨n, R, (replaceFrom_of_not_isUnit hr).symm.trans hrun, hR⟩
  · rintro ⟨n, R, hrun, hR⟩
    exact ⟨n + 1, R, (replaceFrom_of_not_isUnit hr).trans hrun, hR⟩

theorem append_iff (hl : ∀ r ∈ l, ¬G.IsUnit r) :
  G.LoopClears P d (l ++ e) ↔ G.LoopClears P (d ++ l) e
  := by
  induction l generalizing d with
  | nil => rw [List.nil_append, List.append_nil]
  | cons r l ih =>
      rw [List.forall_mem_cons] at hl
      rw [List.cons_append, cons_iff hl.1, ih hl.2, List.append_assoc, List.singleton_append]

/-- The iteration at a single nonterminal: the first of the productions put in is passed over, and
if there are none the next production. -/
theorem unit {R : List Rule} {n : ℕ} (hu : G.IsUnit u)
    (hcall : G.replaceNonTerminal n P u.termSyb = some R) (hR : ∀ r ∈ R, ¬G.IsUnit r)
    (hnext : R = [] → ∀ v ∈ e.head?, ¬G.IsUnit v) (hd : ∀ r ∈ d, ¬G.IsUnit r)
    (h : G.LoopClears P (d ++ R.reverse) e) :
  G.LoopClears P d (u :: e)
  := by
  have hR' : ∀ r ∈ R.reverse, ¬G.IsUnit r := fun r hr => hR r (List.mem_reverse.mp hr)
  -- the list that the loop goes on with, at the index of its second production
  obtain ⟨m, S, hrun, hS⟩ : ∃ m S,
      G.replaceFrom m P (d.length + 1) (d ++ (R.reverse ++ e)) = some S
        ∧ ∀ r ∈ S, ¬G.IsUnit r := by
    have hall : G.LoopClears P d (R.reverse ++ e) := (append_iff hR').mpr h
    cases hhead : R.reverse ++ e with
    | nil => exact ⟨1, d ++ [], replaceFrom_end (by simp), by simpa using hd⟩
    | cons v k =>
        have hv : ¬G.IsUnit v := by
          cases hrev : R.reverse with
          | nil =>
              rw [hrev, List.nil_append] at hhead
              apply hnext (List.reverse_eq_nil_iff.mp hrev) v (by simp [hhead])
          | cons w k' =>
              rw [hrev, List.cons_append, List.cons.injEq] at hhead
              exact hhead.1 ▸ hR' w (by simp [hrev])
        rw [hhead, cons_iff hv] at hall
        obtain ⟨m, S, hrun, hS⟩ := hall
        refine ⟨m, S, ?_, hS⟩
        rw [← hrun]
        simp
  refine ⟨max n m + 1, S, ?_, hS⟩
  rw [replaceFrom_of_isUnit hu (replaceNonTerminal_mono (le_max_left n m) hcall)]
  apply replaceFrom_mono (le_max_right n m) hrun

/-- The loop over productions whose single nonterminals are cleared. -/
theorem of_chain (hcalls : ∀ u ∈ l, G.IsUnit u → G.Clears P u.termSyb)
    (hchain : l.IsChain fun u v => G.IsUnit u → G.IsUnit v → ∃ r, G.OffersRule P u.termSyb r)
    (hd : ∀ r ∈ d, ¬G.IsUnit r) :
  G.LoopClears P d l
  := by
  induction l generalizing d with
  | nil => exact nil hd
  | cons u l ih =>
      rw [List.forall_mem_cons] at hcalls
      have htail := hchain.tail
      by_cases hu : G.IsUnit u
      · obtain ⟨n, R, hcall, hR⟩ := hcalls.1 hu
        refine unit hu hcall hR ?_ hd (ih hcalls.2 htail ?_)
        · rintro rfl v hv hunit
          obtain ⟨r, hr⟩ := hchain.rel_head? hv hu hunit
          rcases ((G.run_offers n).1 _ _ _ hcall).1 r hr with ⟨h, -⟩ | ⟨w, h, -⟩
          · cases h
          · cases h
        · intro r hr
          rcases List.mem_append.mp hr with hr | hr
          · apply hd r hr
          · apply hR r (List.mem_reverse.mp hr)
      · rw [cons_iff hu]
        refine ih hcalls.2 htail fun r hr => ?_
        rcases List.mem_append.mp hr with hr | hr
        · apply hd r hr
        · exact List.mem_singleton.mp hr ▸ hu

end LoopClears

theorem SkipsNone.clears {G : Grammar} {P : List String} {N : String} (h : G.SkipsNone [] P N)
    (hN : N ∈ G.keys) :
  G.Clears P N
  := by
  induction h with
  | @cut P N hmem => exact ⟨1, [], by simp [replaceNonTerminal, hmem], by simp⟩
  | done hmem => cases hmem
  | @walk P N _ hchain ih =>
      have hloop : G.LoopClears (N :: P) [] (G.rules N) := by
        apply LoopClears.of_chain (fun u hu hunit => ih u hu hunit hunit.2) _ (by simp)
        simpa only [offersAfter_nil] using hchain
      obtain ⟨n, R, hrun, hR⟩ := hloop
      by_cases hmem : N ∈ P
      · exact ⟨1, [], by simp [replaceNonTerminal, hmem], by simp⟩
      · refine ⟨n + 1, R, ?_, hR⟩
        rw [replaceNonTerminal, if_neg hmem, lookup_eq_some hN]
        apply hrun

theorem SkipsNone.of_units {G : Grammar} {D P : List String} {N : String}
    (h : ∀ r ∈ G.rules N, ¬G.IsUnit r) :
  G.SkipsNone D P N
  := by
  apply SkipsNone.walk
  · intro u hu hunit
    apply absurd hunit (h u hu)
  · refine (List.isChain_isInfix (G.rules N)).imp fun u v huv hu => ?_
    apply absurd hu (h u (huv.subset List.mem_cons_self))

/-! ### The nonterminals that are done -/

/-- The grammar after the productions of some nonterminals have been replaced. -/
structure Done (G : Grammar) (D : List String) (G' : Grammar) : Prop where
  keys : G'.keys = G.keys
  rules : ∀ N ∉ D, G'.rules N = G.rules N
  units : ∀ N ∈ D, ∀ r ∈ G'.rules N, ¬G'.IsUnit r
  offers : ∀ N r, G'.OffersRule [] N r ↔ G.OffersRule [] N r

namespace Done

variable {G G' : Grammar} {D P : List String} {N : String} {l : List Rule} {n : ℕ}

theorem nil (G : Grammar) :
  G.Done [] G
  := ⟨rfl, fun _ _ => rfl, by simp, fun _ _ => Iff.rfl⟩

theorem isUnit (h : G.Done D G') (r : Rule) :
  G'.IsUnit r ↔ G.IsUnit r
  := by rw [IsUnit, IsUnit, h.keys]

theorem offersRule_iff_mem (h : G.Done D G') (hN : N ∈ D) (r : Rule) :
  r ∈ G'.rules N ↔ G.OffersRule [] N r
  := by
  rw [← h.offers]
  constructor
  · intro hr
    exact .own List.not_mem_nil ⟨hr, h.units N hN r hr⟩
  · intro hr
    cases hr with
    | own _ hown => exact hown.1
    | step _ hstep _ =>
        obtain ⟨u, hu, hunit, -⟩ := hstep
        apply absurd hunit (h.units N hN u hu)

/-- What is offered after the step is what was offered, with the replaced productions. -/
theorem offersRule_iff (h : G.Done D G') {r : Rule} :
  G'.OffersRule P N r ↔ G.OffersAfter D P N r
  := by
  have hstep : G'.UnitStep = G.UnitStepAfter D := by
    ext M M'
    by_cases hM : M ∈ D
    · constructor
      · rintro ⟨u, hu, hunit, -⟩
        apply absurd hunit (h.units M hM u hu)
      · rintro ⟨hnot, -⟩
        apply absurd hM hnot
    · simp only [UnitStepAfter, UnitStep, h.rules M hM, h.isUnit, hM, not_false_eq_true, true_and]
  have hown : G'.Own = G.OwnAfter D := by
    ext M s
    by_cases hM : M ∈ D
    · rw [OwnAfter, if_pos hM, ← h.offersRule_iff_mem hM]
      exact ⟨And.left, fun hs => ⟨hs, h.units M hM s hs⟩⟩
    · rw [OwnAfter, if_neg hM, Own, Own, h.rules M hM, h.isUnit]
  rw [OffersAfter, ← hstep, ← hown]

theorem skipsNone_iff (h : G.Done D G') :
  G'.SkipsNone [] P N ↔ G.SkipsNone D P N
  := by
  constructor
  · intro hskips
    induction hskips with
    | cut hmem => exact .cut hmem
    | done hmem => cases hmem
    | @walk P N _ hchain ih =>
        by_cases hN : N ∈ D
        · exact .done hN
        · simp only [offersAfter_nil, h.offersRule_iff, h.rules N hN, h.isUnit] at hchain ih
          exact .walk ih hchain
  · intro hskips
    induction hskips with
    | cut hmem => exact .cut hmem
    | @done P N hN =>
        apply SkipsNone.of_units (h.units N hN)
    | @walk P N hwalk hchain ih =>
        by_cases hN : N ∈ D
        · apply SkipsNone.of_units (h.units N hN)
        · apply SkipsNone.walk
          · simpa only [h.rules N hN, h.isUnit] using ih
          · simpa only [offersAfter_nil, h.offersRule_iff, h.rules N hN, h.isUnit] using hchain

/-- One more nonterminal is done when its productions have been replaced by others. -/
theorem step (h : G.Done D G') (hN : N ∈ G.keys) (hrun : G'.replaceNonTerminal n [] N = some l)
    (hl : ∀ r ∈ l, ¬G'.IsUnit r) :
  G.Done (N :: D) (G'.replace N l)
  := by
  rw [← h.keys] at hN
  constructor
  · rw [keys_replace, h.keys]
  · intro M hM
    rw [List.mem_cons, not_or] at hM
    rw [rules_replace_of_ne G' hM.1, h.rules M hM.2]
  · intro M hM r hr
    rw [isUnit_replace]
    by_cases hMN : M = N
    · subst hMN
      rw [rules_replace_self hN] at hr
      apply hl r hr
    · rw [rules_replace_of_ne G' hMN] at hr
      apply h.units M ((List.mem_cons.mp hM).resolve_left hMN) r hr
  · intro M r
    rw [offers_replace hN hrun, h.offers]

end Done

/-! ### What is passed over otherwise -/

section Passes

variable {G : Grammar} {P : List String} {d e l : List Rule} {r u : Rule} {n : ℕ}

theorem passesFrom_of_not_isUnit (hr : ¬G.IsUnit r) :
  G.passesFrom (n + 1) P d.length (d ++ r :: e) = G.passesFrom n P (d ++ [r]).length (d ++ [r] ++ e)
  := by
  rw [passesFrom]
  simp [hr]

theorem passesFrom_append (hl : ∀ r ∈ l, ¬G.IsUnit r) :
  G.passesFrom (n + l.length) P d.length (d ++ (l ++ e))
    = G.passesFrom n P (d ++ l).length (d ++ l ++ e)
  := by
  induction l generalizing d with
  | nil => simp
  | cons r l ih =>
      rw [List.forall_mem_cons] at hl
      rw [List.length_cons, ← Nat.add_assoc, List.cons_append, passesFrom_of_not_isUnit hl.1,
        ih hl.2, List.append_assoc d, List.singleton_append]

/-- The production at the index is not looked at, and need not be. -/
theorem passesFrom_of_head (hhead : ∀ v ∈ e.head?, ¬G.IsUnit v)
    (h : G.passesFrom n P (d.length + 1) (d ++ e) = false) :
  G.passesFrom (n + 1) P d.length (d ++ e) = false
  := by
  cases e with
  | nil =>
      rw [passesFrom]
      simp
  | cons v e =>
      rw [passesFrom_of_not_isUnit (hhead v rfl)]
      simpa using h

/-- One iteration at a single nonterminal that passes over none. -/
theorem passesFrom_unit_eq_false {R : List Rule} (hu : G.IsUnit u)
    (hcall : G.replaceNonTerminal n P u.termSyb = some R)
    (h : G.passesFrom (n + 1) P d.length (d ++ u :: e) = false) :
  (∀ v ∈ (R.reverse ++ e).head?, ¬G.IsUnit v) ∧
    G.passesFrom n P (d.length + 1) (d ++ (R.reverse ++ e)) = false
  := by
  have hget : (d ++ u :: e)[d.length]? = some u := by
    simp
  rw [passesFrom, hget] at h
  simp only [if_pos hu, hcall, insert_returnList, Bool.or_eq_false_iff] at h
  refine ⟨?_, h.2.2⟩
  intro v hv hunit
  have hnext : (d ++ (R.reverse ++ e))[d.length]? = some v := by
    rw [List.getElem?_append_right le_rfl, Nat.sub_self, ← List.head?_eq_getElem?]
    exact hv
  rw [hnext] at h
  simp [hunit] at h

end Passes

/-- A loop that passes over no single nonterminal has a list in which none can be. -/
theorem chain_of_passesFrom {G : Grammar} {P : List String} {d l : List Rule}
    (hcalls : ∀ u ∈ l, G.IsUnit u → (∃ k, ∀ n ≥ k, G.passes n P u.termSyb = false) →
      G.SkipsNone [] P u.termSyb)
    (h : ∃ k, ∀ n ≥ k, G.passesFrom n P d.length (d ++ l) = false) :
  (∀ u ∈ l, G.IsUnit u → G.SkipsNone [] P u.termSyb) ∧
    l.IsChain (fun u v => G.IsUnit u → G.IsUnit v → ∃ r, G.OffersAfter [] P u.termSyb r)
  := by
  induction l generalizing d with
  | nil => exact ⟨by simp, .nil⟩
  | cons u l ih =>
      obtain ⟨hcall, hcalls⟩ := List.forall_mem_cons.mp hcalls
      obtain ⟨k, hk⟩ := h
      by_cases hu : G.IsUnit u
      · have hpasses : ∃ k, ∀ n ≥ k, G.passes n P u.termSyb = false := by
          refine ⟨k, fun n hn => ?_⟩
          have hfalse := hk (n + 1) (Nat.le_succ_of_le hn)
          rw [passesFrom] at hfalse
          simp only [List.getElem?_append_right le_rfl, Nat.sub_self, List.getElem?_cons_zero,
            if_pos hu, Bool.or_eq_false_iff] at hfalse
          exact hfalse.1
        have hskips := hcall hu hpasses
        obtain ⟨m, R, hrun, hR⟩ := hskips.clears hu.2
        have hR' : ∀ r ∈ R.reverse, ¬G.IsUnit r := fun r hr => hR r (List.mem_reverse.mp hr)
        have hiteration : ∀ n ≥ max k m, (∀ v ∈ (R.reverse ++ l).head?, ¬G.IsUnit v) ∧
            G.passesFrom n P (d.length + 1) (d ++ (R.reverse ++ l)) = false := by
          intro n hn
          apply passesFrom_unit_eq_false hu (replaceNonTerminal_mono (by omega) hrun)
          apply hk (n + 1) (by omega)
        have hnext : ∃ k, ∀ n ≥ k,
            G.passesFrom n P (d ++ R.reverse).length (d ++ R.reverse ++ l) = false := by
          refine ⟨max k m + 1, fun n hn => ?_⟩
          obtain ⟨n, rfl⟩ := Nat.exists_eq_add_of_le' (Nat.le_trans (Nat.le_add_left 1 _) hn)
          obtain ⟨hhead, hfrom⟩ := hiteration (n + R.reverse.length) (by omega)
          rw [← passesFrom_append hR', Nat.add_right_comm]
          apply passesFrom_of_head hhead hfrom
        obtain ⟨hskips', hchain⟩ := ih hcalls hnext
        refine ⟨List.forall_mem_cons.mpr ⟨fun _ => hskips, hskips'⟩, ?_⟩
        rw [List.isChain_cons]
        refine ⟨fun v hv _ hunit => ?_, hchain⟩
        cases R with
        | nil =>
            have hhead := (hiteration _ le_rfl).1
            rw [List.reverse_nil, List.nil_append] at hhead
            apply absurd hunit (hhead v hv)
        | cons w R =>
            have hw := hR w List.mem_cons_self
            have hlist : G.ListOffers P (w :: R) w := .inl ⟨List.mem_cons_self, hw⟩
            refine ⟨w, offersAfter_nil.mpr ?_⟩
            apply ((G.run_offers m).1 _ _ _ hrun).2 P (List.Subset.refl P) w hlist
      · have hnext : ∃ k, ∀ n ≥ k, G.passesFrom n P (d ++ [u]).length (d ++ [u] ++ l) = false := by
          refine ⟨k, fun n hn => ?_⟩
          rw [← passesFrom_of_not_isUnit hu]
          apply hk (n + 1) (Nat.le_succ_of_le hn)
        obtain ⟨hskips, hchain⟩ := ih hcalls hnext
        refine ⟨List.forall_mem_cons.mpr ⟨fun hunit => absurd hunit hu, hskips⟩, ?_⟩
        rw [List.isChain_cons]
        exact ⟨fun v _ hunit => absurd hunit hu, hchain⟩

/-- A call that passes over no single nonterminal is for a nonterminal below which none can be. -/
theorem skipsNone_of_passes {G : Grammar} {P : List String} {N : String} (hN : N ∈ G.keys)
    (h : ∃ k, ∀ n ≥ k, G.passes n P N = false) :
  G.SkipsNone [] P N
  := by
  -- there are ever fewer nonterminals that are no parents
  induction hm : (G.keys.filter (· ∉ P)).length using Nat.strong_induction_on generalizing P N with
  | _ m ih =>
      by_cases hP : N ∈ P
      · exact .cut hP
      · obtain ⟨k, hk⟩ := h
        have hloop : ∃ k, ∀ n ≥ k,
            G.passesFrom n (N :: P) ([] : List Rule).length ([] ++ G.rules N) = false := by
          refine ⟨k, fun n hn => ?_⟩
          have hfalse := hk (n + 1) (Nat.le_succ_of_le hn)
          rw [passes, if_neg hP, lookup_eq_some hN] at hfalse
          apply hfalse
        have hless : (G.keys.filter (· ∉ N :: P)).length < m := by
          have hfilter : G.keys.filter (· ∉ N :: P)
              = (G.keys.filter (· ∉ P)).filter fun M => M ≠ N := by
            simp [List.filter_filter]
          rw [← hm, hfilter]
          apply List.length_filter_lt_length_iff_exists.mpr
          exact ⟨N, by simp [hN, hP], by simp⟩
        obtain ⟨hskips, hchain⟩ := chain_of_passesFrom
          (fun u _ hunit hpasses => ih _ hless hunit.2 hpasses rfl) hloop
        exact .walk hskips hchain

/-! ### The whole run -/

theorem replaceKeys_of_skipsNone {keys D : List String} {G G' : Grammar} (hsub : keys ⊆ G.keys)
    (hdone : G.Done D G') (h : G.SkipsNoneInTurn D keys) :
  ∃ n G'', replaceKeys n keys G' = some G'' ∧ G.Done (keys.reverse ++ D) G''
  := by
  induction keys generalizing D G' with
  | nil => exact ⟨0, G', rfl, hdone⟩
  | cons key keys ih =>
      obtain ⟨hkey, hsub⟩ := List.cons_subset.mp hsub
      obtain ⟨hskips, hturn⟩ := h
      obtain ⟨n, l, hcall, hl⟩ := (hdone.skipsNone_iff.mpr hskips).clears (hdone.keys ▸ hkey)
      obtain ⟨m, G'', hrun, hdone'⟩ := ih hsub (hdone.step hkey hcall hl) hturn
      refine ⟨max n m, G'', ?_, ?_⟩
      · rw [replaceKeys, replaceNonTerminal_mono (le_max_left n m) hcall]
        apply replaceKeys_mono (le_max_right n m) hrun
      · rw [List.reverse_cons, List.append_assoc]
        apply hdone'

theorem skipsNoneInTurn_of_passesKeys {keys D : List String} {G G' : Grammar}
    (hsub : keys ⊆ G.keys) (hdone : G.Done D G')
    (h : ∃ k, ∀ n ≥ k, passesKeys n keys G' = false) :
  G.SkipsNoneInTurn D keys
  := by
  induction keys generalizing D G' with
  | nil => trivial
  | cons key keys ih =>
      obtain ⟨hkey, hsub⟩ := List.cons_subset.mp hsub
      obtain ⟨k, hk⟩ := h
      simp only [passesKeys, Bool.or_eq_false_iff] at hk
      have hkey' : key ∈ G'.keys := hdone.keys ▸ hkey
      have hskips := skipsNone_of_passes hkey' ⟨k, fun n hn => (hk n hn).1⟩
      refine ⟨hdone.skipsNone_iff.mp hskips, ?_⟩
      obtain ⟨m, l, hcall, hl⟩ := hskips.clears hkey'
      apply ih hsub (hdone.step hkey hcall hl)
      refine ⟨max k m, fun n hn => ?_⟩
      have hrest := (hk n (le_trans (le_max_left k m) hn)).2
      rw [replaceNonTerminal_mono (le_trans (le_max_right k m) hn) hcall] at hrest
      apply hrest

/-- Unless it is so in turn for all nonterminals, a single nonterminal is passed over in the run. -/
theorem passesKeys_of_not_skipsNone {G : Grammar} (h : ¬G.SkipsNoneInTurn [] G.keys) :
  ∃ n, passesKeys n G.keys G = true
  := by
  by_contra hnone
  rw [not_exists] at hnone
  apply h
  apply skipsNoneInTurn_of_passesKeys (List.Subset.refl _) (Done.nil G)
  exact ⟨0, fun n _ => by simpa using hnone n⟩

/-- If no single nonterminal is passed over, the run ends with a grammar of the same language that
has no production of this kind; and the condition for this fails only if one is passed over. -/
theorem exitSynthfun_eliminates (G : Grammar) :
  (G.SkipsNoneInTurn [] G.keys →
    ∃ G', (∃ n, ∀ m ≥ n, exitSynthfun m G = some G') ∧ Eliminated G G') ∧
  (¬G.SkipsNoneInTurn [] G.keys → ∃ n, passesKeys n G.keys G = true)
  := by
  refine ⟨fun h => ?_, passesKeys_of_not_skipsNone⟩
  obtain ⟨n, G', hrun, hdone⟩ := replaceKeys_of_skipsNone (List.Subset.refl _) (Done.nil G) h
  refine ⟨G', ⟨n, fun m hm => replaceKeys_mono hm hrun⟩, ?_, exitSynthfun_language hrun⟩
  intro N hN
  apply hdone.units N
  rw [List.append_nil, List.mem_reverse]
  exact hN

/-- A cycle of two nonterminals with a way out at each, and a nonterminal that leads to both. -/
def cyclicGrammar : Grammar :=
  [("Start", [⟨"A", []⟩, ⟨"B", []⟩, ⟨"x", []⟩]), ("A", [⟨"B", []⟩, ⟨"+", ["A", "A"]⟩]),
    ("B", [⟨"A", []⟩, ⟨"1", []⟩])]

theorem skipsNone_cyclicGrammar :
  cyclicGrammar.SkipsNoneInTurn [] cyclicGrammar.keys
  := by
  have hstart : cyclicGrammar.rules "Start" = [⟨"A", []⟩, ⟨"B", []⟩, ⟨"x", []⟩] := rfl
  have hA : cyclicGrammar.rules "A" = [⟨"B", []⟩, ⟨"+", ["A", "A"]⟩] := rfl
  have hB : cyclicGrammar.rules "B" = [⟨"A", []⟩, ⟨"1", []⟩] := rfl
  have hx : ¬cyclicGrammar.IsUnit ⟨"x", []⟩ := by decide
  have hplus : ¬cyclicGrammar.IsUnit ⟨"+", ["A", "A"]⟩ := by decide
  have hone : ¬cyclicGrammar.IsUnit ⟨"1", []⟩ := by decide
  -- `B` below `A`, and `A` below `B`, where the cycle is cut
  have hBA : ∀ D P, cyclicGrammar.SkipsNone D ("A" :: P) "B" := by
    intro D P
    refine .walk ?_ ?_
    · rw [hB]
      simpa [hone] using fun _ => SkipsNone.cut (by simp)
    · simp [hB, hone]
  have hAB : ∀ D P, cyclicGrammar.SkipsNone D ("B" :: P) "A" := by
    intro D P
    refine .walk ?_ ?_
    · rw [hA]
      simpa [hplus] using fun _ => SkipsNone.cut (by simp)
    · simp [hA, hplus]
  have hAall : ∀ D P, cyclicGrammar.SkipsNone D P "A" := by
    intro D P
    refine .walk ?_ ?_
    · rw [hA]
      simpa [hplus] using fun _ => hBA D P
    · simp [hA, hplus]
  have hBall : ∀ D P, cyclicGrammar.SkipsNone D P "B" := by
    intro D P
    refine .walk ?_ ?_
    · rw [hB]
      simpa [hone] using fun _ => hAB D P
    · simp [hB, hone]
  have hoffers : ∃ r, cyclicGrammar.OffersAfter [] ["Start"] "A" r :=
    ⟨⟨"+", ["A", "A"]⟩, offersAfter_nil.mpr (.own (by decide) ⟨by decide, hplus⟩)⟩
  have hkeys : cyclicGrammar.keys = ["Start", "A", "B"] := rfl
  rw [hkeys]
  refine ⟨.walk ?_ ?_, hAall _ [], hBall _ [], trivial⟩
  · rw [hstart]
    simpa [hx] using ⟨fun _ => hAall _ _, fun _ => hBall _ _⟩
  · simpa [hstart, hx] using fun _ _ => hoffers

theorem exitSynthfun_eliminates_cyclic :
  ∃ G', (∃ n, ∀ m ≥ n, exitSynthfun m cyclicGrammar = some G') ∧ Eliminated cyclicGrammar G'
  := (exitSynthfun_eliminates cyclicGrammar).1 skipsNone_cyclicGrammar

example :
  exitSynthfun 20 [("A", [⟨"B", []⟩, ⟨"a", []⟩]), ("B", [⟨"A", []⟩, ⟨"b", []⟩])]
    = some [("A", [⟨"b", []⟩, ⟨"a", []⟩]), ("B", [⟨"a", []⟩, ⟨"b", []⟩, ⟨"b", []⟩])]
  := by decide

/-- Below `A` the production `A` of `B` is cut, and `C`, which moves up, passed over. -/
def skippedGrammar : Grammar :=
  [("A", [⟨"B", []⟩, ⟨"a", []⟩]), ("B", [⟨"A", []⟩, ⟨"C", []⟩]), ("C", [⟨"c", []⟩])]

theorem exitSynthfun_skipped :
  ¬∃ G', (∃ n, ∀ m ≥ n, exitSynthfun m skippedGrammar = some G') ∧ Eliminated skippedGrammar G'
  := by
  rintro ⟨G', ⟨n, hn⟩, hG'⟩
  have hrun : exitSynthfun 12 skippedGrammar
      = some [("A", [⟨"C", []⟩, ⟨"a", []⟩]), ("B", [⟨"a", []⟩, ⟨"c", []⟩, ⟨"c", []⟩]),
          ("C", [⟨"c", []⟩])] := by
    decide
  have hmax := hn (max n 12) (le_max_left n 12)
  rw [exitSynthfun, replaceKeys_mono (le_max_right n 12) hrun, Option.some.injEq] at hmax
  subst hmax
  apply hG'.units "A" (by decide) ⟨"C", []⟩ (by decide) (by decide)

end Grammar

end Sygus
