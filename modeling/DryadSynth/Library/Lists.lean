import Mathlib

/-!
# Lists of results

A function without a result for some arguments, applied to all elements of a list, and facts that
two lists share element by element.
-/

namespace Lists

variable {α β : Type*} {f g : α → Option β} {R : α → β → Prop} {l : List α} {l' : List β}

theorem mapM_eq_some_iff :
  l.mapM f = some l' ↔ List.Forall₂ (fun a b => f a = some b) l l'
  := by
  induction l generalizing l' with
  | nil => simp [eq_comm]
  | cons a l ih =>
      rw [List.mapM_cons, List.forall₂_cons_left_iff]
      constructor
      · intro h
        obtain ⟨b, hb, h⟩ := Option.bind_eq_some_iff.mp h
        obtain ⟨bs, hbs, h⟩ := Option.bind_eq_some_iff.mp h
        exact ⟨b, bs, hb, ih.mp hbs, (Option.some.inj h).symm⟩
      · rintro ⟨b, bs, hb, hbs, rfl⟩
        rw [hb, ih.mpr hbs]
        rfl

theorem mapM_eq_none {a : α} (ha : a ∈ l) (h : f a = none) :
  l.mapM f = none
  := by
  induction l with
  | nil => cases ha
  | cons b l ih =>
      rw [List.mapM_cons]
      rcases List.mem_cons.mp ha with rfl | ha
      · rw [h]
        rfl
      · rw [ih ha]
        cases f b with
        | none => rfl
        | some b => rfl

theorem mapM_eq_map {k : α → β} (h : ∀ a ∈ l, f a = some (k a)) :
  l.mapM f = some (l.map k)
  := by
  induction l with
  | nil => rfl
  | cons a l ih =>
      rw [List.mapM_cons, h a List.mem_cons_self, ih fun b hb => h b (List.mem_cons_of_mem a hb)]
      rfl

theorem exists_of_mapM (h : l.mapM f = some l') {a : α} (ha : a ∈ l) :
  ∃ b, f a = some b
  := by
  rw [← Option.ne_none_iff_exists']
  intro hnone
  rw [mapM_eq_none ha hnone] at h
  cases h

theorem mapM_eq_map_iff {k : α → β} :
  l.mapM f = some (l.map k) ↔ ∀ a ∈ l, f a = some (k a)
  := by
  constructor
  · intro h
    rw [mapM_eq_some_iff, List.forall₂_map_right_iff, List.forall₂_same] at h
    apply h
  · apply mapM_eq_map

theorem mapM_congr (h : ∀ a ∈ l, f a = g a) :
  l.mapM f = l.mapM g
  := by
  induction l with
  | nil => rfl
  | cons a l ih =>
      rw [List.mapM_cons, List.mapM_cons, h a List.mem_cons_self,
        ih fun b hb => h b (List.mem_cons_of_mem a hb)]

/-- If the function is defined on all elements, with results in a relation, so it is on the
list. -/
theorem exists_mapM (h : ∀ a ∈ l, ∃ b, f a = some b ∧ R a b) :
  ∃ l', l.mapM f = some l' ∧ List.Forall₂ R l l'
  := by
  induction l with
  | nil => exact ⟨[], rfl, .nil⟩
  | cons a l ih =>
      obtain ⟨b, hb, hab⟩ := h a List.mem_cons_self
      obtain ⟨l', hl', hR⟩ := ih fun a' ha' => h a' (List.mem_cons_of_mem _ ha')
      use b :: l'
      constructor
      · rw [List.mapM_cons, hb, hl']
        rfl
      · exact .cons hab hR

/-- The results for a list are in a relation that all results are in. -/
theorem forall₂_of_mapM (h : l.mapM f = some l') (hR : ∀ a ∈ l, ∀ b, f a = some b → R a b) :
  List.Forall₂ R l l'
  := by
  have hl := mapM_eq_some_iff.mp h
  clear h
  induction hl with
  | nil => exact .nil
  | cons hab _ ih =>
      obtain ⟨ha, hl⟩ := List.forall_mem_cons.mp hR
      exact .cons (ha _ hab) (ih hl)

theorem mapM_replicate (b₀ : β) {a : α} {m : ℕ} :
  (List.replicate m a).mapM f = some l' ↔ ∃ b, (m ≠ 0 → f a = some b) ∧ l' = List.replicate m b
  := by
  have hβ : Nonempty β := ⟨b₀⟩
  rw [mapM_eq_some_iff]
  induction m generalizing l' with
  | zero => simp
  | succ m ih =>
      rw [List.replicate_succ, List.forall₂_cons_left_iff]
      constructor
      · rintro ⟨b, l', hb, hl, rfl⟩
        obtain ⟨c, hc, rfl⟩ := ih.mp hl
        refine ⟨b, fun _ => hb, ?_⟩
        rw [List.replicate_succ]
        congr 1
        by_cases hm : m = 0
        · rw [hm]
          rfl
        · rw [Option.some.inj ((hc hm).symm.trans hb)]
      · rintro ⟨b, hb, rfl⟩
        have hb := hb (Nat.succ_ne_zero m)
        exact ⟨b, _, hb, ih.mpr ⟨b, fun _ => hb, rfl⟩, List.replicate_succ⟩

/-- Every element of the second list comes from one of the first. -/
theorem exists_of_forall₂ (h : List.Forall₂ R l l') {b : β} (hb : b ∈ l') :
  ∃ a ∈ l, R a b
  := by
  obtain ⟨i, hi, rfl⟩ := List.mem_iff_getElem.mp hb
  have hi' : i < l.length := h.length_eq ▸ hi
  exact ⟨l[i], List.getElem_mem hi', h.get hi' hi⟩

/-- What two lists agree in they agree in at the same positions. -/
theorem eq_of_mem_zip {γ : Type*} {p : α → γ} {q : β → γ} {a : α} {b : β} (h : l.map p = l'.map q)
    (hmem : (a, b) ∈ l.zip l') :
  p a = q b
  := by
  induction l generalizing l' with
  | nil => cases hmem
  | cons c l ih =>
      cases l' with
      | nil => cases hmem
      | cons d l' =>
          obtain ⟨hhead, htail⟩ := List.cons.inj h
          rcases List.mem_cons.mp hmem with heq | hmem
          · obtain ⟨rfl, rfl⟩ := Prod.mk.inj heq
            exact hhead
          · apply ih htail hmem

theorem ne_nil_of_forall₂ (h : List.Forall₂ R l l') (hl : l ≠ []) :
  l' ≠ []
  := by
  cases h with
  | nil => exact absurd rfl hl
  | cons _ _ => exact List.cons_ne_nil _ _

theorem forall_of_forall₂ {P : β → Prop} (h : List.Forall₂ R l l') (hP : ∀ a b, R a b → P b) :
  ∀ b ∈ l', P b
  := by
  induction h with
  | nil => intro b hb; cases hb
  | cons hab _ ih =>
      intro b hb
      rcases List.mem_cons.mp hb with rfl | hb
      · apply hP _ _ hab
      · apply ih b hb

theorem forall_iff_of_forall₂ {P : β → Prop} {Q : α → Prop} (h : List.Forall₂ R l l')
    (hPQ : ∀ a b, R a b → (P b ↔ Q a)) :
  (∀ b ∈ l', P b) ↔ ∀ a ∈ l, Q a
  := by
  induction h with
  | nil => simp
  | cons hab _ ih => rw [List.forall_mem_cons, List.forall_mem_cons, hPQ _ _ hab, ih]

theorem exists_iff_of_forall₂ {P : β → Prop} {Q : α → Prop} (h : List.Forall₂ R l l')
    (hPQ : ∀ a b, R a b → (P b ↔ Q a)) :
  (∃ b ∈ l', P b) ↔ ∃ a ∈ l, Q a
  := by
  induction h with
  | nil => simp
  | cons hab _ ih => rw [List.exists_mem_cons_iff, List.exists_mem_cons_iff, hPQ _ _ hab, ih]

/-- Elements that are all related to something are related to some list. -/
theorem exists_forall₂ :
  (∃ l', List.Forall₂ R l l') ↔ ∀ a ∈ l, ∃ b, R a b
  := by
  induction l with
  | nil => simp
  | cons a l ih =>
      rw [List.forall_mem_cons, ← ih]
      constructor
      · rintro ⟨_, hab | ⟨hab, hl⟩⟩
        exact ⟨⟨_, hab⟩, _, hl⟩
      · rintro ⟨⟨b, hab⟩, l', hl⟩
        exact ⟨b :: l', .cons hab hl⟩

theorem getElem?_of_forall₂ (h : List.Forall₂ R l l') {i : ℕ} {a : α} (ha : l[i]? = some a) :
  ∃ b, l'[i]? = some b ∧ R a b
  := by
  induction h generalizing i with
  | nil => cases ha
  | @cons a' b l l' hab _ ih =>
      cases i with
      | zero =>
          cases ha
          exact ⟨b, rfl, hab⟩
      | succ i => exact ih ha

/-- A list of which each element is an image is an image. -/
theorem exists_map_of_forall₂ {γ : Type*} {k : γ → β} (h : List.Forall₂ R l l')
    (hR : ∀ a ∈ l, ∀ b, R a b → ∃ c, k c = b) :
  ∃ cs : List γ, l' = cs.map k
  := by
  induction h with
  | nil => exact ⟨[], rfl⟩
  | @cons a b l l' hab _ ih =>
      obtain ⟨c, rfl⟩ := hR a List.mem_cons_self b hab
      obtain ⟨cs, rfl⟩ := ih fun a' ha' => hR a' (List.mem_cons_of_mem a ha')
      exact ⟨c :: cs, rfl⟩

/-- A loop that keeps an invariant, and achieves something for every element. -/
theorem foldl_achieves {σ : Type*} {f : σ → α → σ} {I : σ → Prop} {D : α → σ → Prop} {s : σ}
    (hs : I s)
    (hpass : ∀ s, I s → ∀ a ∈ l, I (f s a) ∧ D a (f s a) ∧ ∀ a', D a' s → D a' (f s a)) :
  I (l.foldl f s) ∧ (∀ a ∈ l, D a (l.foldl f s)) ∧ ∀ a, D a s → D a (l.foldl f s)
  := by
  induction l generalizing s with
  | nil => exact ⟨hs, by simp, fun _ h => h⟩
  | cons a l ih =>
      obtain ⟨hI, hD, hkeep⟩ := hpass s hs a List.mem_cons_self
      obtain ⟨hI', hD', hkeep'⟩ := ih hI fun s hs b hb => hpass s hs b (List.mem_cons_of_mem a hb)
      refine ⟨hI', ?_, fun b hb => hkeep' b (hkeep b hb)⟩
      intro b hb
      rcases List.mem_cons.mp hb with rfl | hb
      · apply hkeep' b hD
      · apply hD' b hb

/-- An entry with a new key goes to the end of a map. -/
theorem nodup_keys_concat {κ γ : Type*} {m : List (κ × γ)} (h : (m.map Prod.fst).Nodup) {e : κ × γ}
    (hnew : e.1 ∉ m.map Prod.fst) :
  ((m ++ [e]).map Prod.fst).Nodup
  := by
  rw [List.map_append, List.nodup_append]
  refine ⟨h, List.nodup_singleton _, ?_⟩
  rintro k hk k' hk' rfl
  rw [List.map_singleton, List.mem_singleton] at hk'
  apply hnew
  rw [← hk']
  exact hk

/-- An element that is found by its key. -/
theorem filter_eq_singleton {γ : Type*} [DecidableEq γ] {key : α → γ} (h : (l.map key).Nodup)
    {a : α} (ha : a ∈ l) :
  l.filter (fun b => key b = key a) = [a]
  := by
  induction l with
  | nil => cases ha
  | cons b l ih =>
      rw [List.map_cons, List.nodup_cons] at h
      rcases List.mem_cons.mp ha with rfl | ha
      · rw [List.filter_cons_of_pos (by simp), List.filter_eq_nil_iff.mpr]
        intro b hb heq
        apply h.1 (List.mem_map.mpr ⟨b, hb, of_decide_eq_true heq⟩)
      · rw [List.filter_cons_of_neg, ih h.2 ha]
        intro heq
        apply h.1 (List.mem_map.mpr ⟨a, ha, (of_decide_eq_true heq).symm⟩)

/-- A traversal in which all that are found are images. -/
theorem eq_map_of_mapM {k : α → β} (h : l.mapM f = some l')
    (hk : ∀ a ∈ l, ∀ b, f a = some b → b = k a) :
  l' = l.map k
  := by
  have hall := forall₂_of_mapM h hk
  clear h hk
  induction hall with
  | nil => rfl
  | cons hab _ ih => rw [hab, ih, List.map_cons]

/-- A loop in which every pass either fails or does `g`. -/
theorem foldl_of_foldlM {σ : Type*} {f : σ → α → Option σ} {g : σ → α → σ} {P : α → Prop} {s s' : σ}
    (h : l.foldlM f s = some s') (hpass : ∀ a ∈ l, ∀ s s', f s a = some s' → s' = g s a ∧ P a) :
  s' = l.foldl g s ∧ ∀ a ∈ l, P a
  := by
  induction l generalizing s with
  | nil =>
      cases h
      exact ⟨rfl, by simp⟩
  | cons a l ih =>
      rw [List.foldlM_cons] at h
      obtain ⟨s₁, h₁, h⟩ := Option.bind_eq_some_iff.mp h
      obtain ⟨rfl, ha⟩ := hpass a List.mem_cons_self s s₁ h₁
      obtain ⟨rfl, hl⟩ := ih h fun b hb => hpass b (List.mem_cons_of_mem a hb)
      exact ⟨rfl, List.forall_mem_cons.mpr ⟨ha, hl⟩⟩

/-- A loop keeps what its passes keep. -/
theorem foldlM_invariant {σ : Type*} {f : σ → α → Option σ} {I : σ → Prop} {s s' : σ} (hs : I s)
    (hpass : ∀ a ∈ l, ∀ s s', I s → f s a = some s' → I s') (h : l.foldlM f s = some s') :
  I s'
  := by
  induction l generalizing s with
  | nil =>
      cases h
      exact hs
  | cons a l ih =>
      rw [List.foldlM_cons] at h
      obtain ⟨s₁, h₁, h⟩ := Option.bind_eq_some_iff.mp h
      apply ih (hpass a List.mem_cons_self s s₁ hs h₁) _ h
      intro b hb
      apply hpass b (List.mem_cons_of_mem a hb)

/-- A loop in which no pass fails, and every pass keeps what is done and does something. -/
theorem foldlM_achieves {σ ι : Type*} {f : σ → α → Option σ} {I : σ → Prop} {D : α → ι → Prop}
    {E : ι → σ → Prop} {s : σ} (hs : I s)
    (hpass : ∀ a ∈ l, ∀ s, I s →
      ∃ s', f s a = some s' ∧ I s' ∧ ∀ k, D a k ∨ E k s → E k s') :
  ∃ s', l.foldlM f s = some s' ∧ I s' ∧ ∀ k, (∃ a ∈ l, D a k) ∨ E k s → E k s'
  := by
  induction l generalizing s with
  | nil => exact ⟨s, rfl, hs, by simp⟩
  | cons a l ih =>
      obtain ⟨s₁, h₁, hI₁, hdone₁⟩ := hpass a List.mem_cons_self s hs
      obtain ⟨s', h', hI', hdone'⟩ := ih hI₁ fun b hb => hpass b (List.mem_cons_of_mem a hb)
      refine ⟨s', ?_, hI', ?_⟩
      · rw [List.foldlM_cons, h₁]
        exact h'
      · rintro k (⟨b, hb, hD⟩ | hdone)
        · rcases List.mem_cons.mp hb with rfl | hb
          · apply hdone' k (.inr (hdone₁ k (.inl hD)))
          · apply hdone' k (.inl ⟨b, hb, hD⟩)
        · apply hdone' k (.inr (hdone₁ k (.inr hdone)))

end Lists
