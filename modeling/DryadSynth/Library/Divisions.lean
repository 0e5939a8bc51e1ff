import Mathlib

/-!
# Divisions of a list

The numbers at which a list is cut are chosen in increasing order.  The choices are exactly the ways
to divide the list into a number of parts none of which is empty.
-/

namespace Divisions

variable {α β : Type*} {l : List α} {k start last : ℕ} {ds : List ℕ} {ps : List (List α)}

/-- All choices of numbers up to `last` in increasing order, the first at least `start`.  The loop
over the first one goes on while there are enough numbers after it. -/
def combine : ℕ → ℕ → ℕ → List (List ℕ)
  | 0, _, _ => [[]]
  | k + 1, start, last =>
      (List.range' start (last + 1 - k - start)).flatMap fun i =>
        (combine k (i + 1) last).map (i :: ·)

/-- The part from `start` to the first number, and so on, and the part from the last number. -/
def cut (l : List α) : ℕ → List ℕ → List (List α)
  | start, [] => [l.drop start]
  | start, d :: ds => (l.take d).drop start :: cut l d ds

theorem cut_map (f : α → β) (l : List α) (start : ℕ) (ds : List ℕ) :
  cut (l.map f) start ds = (cut l start ds).map (List.map f)
  := by
  induction ds generalizing start with
  | nil => rw [cut, cut, List.map_singleton, List.map_drop]
  | cons d ds ih => rw [cut, cut, List.map_cons, List.map_drop, List.map_take, ih]

theorem mem_combine_succ :
  ds ∈ combine (k + 1) start last
    ↔ ∃ i ds', start ≤ i ∧ i + k ≤ last ∧ ds' ∈ combine k (i + 1) last ∧ i :: ds' = ds
  := by
  simp only [combine, List.mem_flatMap, List.mem_map, List.mem_range'_1]
  constructor
  · rintro ⟨i, ⟨hstart, hlast⟩, ds', hds', rfl⟩
    exact ⟨i, ds', hstart, by omega, hds', rfl⟩
  · rintro ⟨i, ds', hstart, hlast, hds', rfl⟩
    exact ⟨i, ⟨hstart, by omega⟩, ds', hds', rfl⟩

theorem take_drop_append {i : ℕ} (hi : start ≤ i) (hl : i ≤ l.length) :
  (l.take i).drop start ++ l.drop i = l.drop start
  := by
  have hlen : start ≤ (l.take i).length := by
    rw [List.length_take]
    omega
  rw [← List.drop_append_of_le_length hlen, List.take_append_drop]

theorem length_le_flatten (h : ∀ p ∈ ps, p ≠ []) :
  ps.length ≤ ps.flatten.length
  := by
  induction ps with
  | nil => rfl
  | cons p ps ih =>
      obtain ⟨hp, hps⟩ := List.forall_mem_cons.mp h
      have hpos := List.length_pos_iff.mpr hp
      have hle := ih hps
      rw [List.flatten_cons, List.length_cons, List.length_append]
      omega

/-- A part leaves room for the others. -/
theorem length_add_length_le_flatten (h : ∀ p ∈ ps, p ≠ []) {p : List α} (hp : p ∈ ps) :
  p.length + ps.length ≤ ps.flatten.length + 1
  := by
  obtain ⟨qs, rs, rfl⟩ := List.append_of_mem hp
  have hqs : qs.length ≤ qs.flatten.length :=
    length_le_flatten fun q hq => h q (List.mem_append_left _ hq)
  have hrs : rs.length ≤ rs.flatten.length :=
    length_le_flatten fun q hq => h q (List.mem_append_right _ (List.mem_cons_of_mem _ hq))
  simp only [List.length_append, List.length_cons, List.flatten_append, List.flatten_cons]
  omega

/-- The choices of where to cut are the divisions into parts that are not empty. -/
theorem exists_cut (hstart : start < l.length) :
  (∃ ds ∈ combine k (start + 1) (l.length - 1), cut l start ds = ps)
    ↔ ps.length = k + 1 ∧ (∀ p ∈ ps, p ≠ []) ∧ ps.flatten = l.drop start
  := by
  induction k generalizing start ps with
  | zero =>
      constructor
      · rintro ⟨ds, hds, rfl⟩
        rw [List.mem_singleton.mp hds]
        simp [cut, hstart]
      · rintro ⟨hlen, -, hflat⟩
        obtain ⟨p, rfl⟩ := List.length_eq_one_iff.mp hlen
        refine ⟨[], List.mem_singleton_self _, ?_⟩
        rw [cut, ← hflat]
        simp
  | succ k ih =>
      constructor
      · rintro ⟨ds, hds, rfl⟩
        obtain ⟨i, ds', hi, hlast, hds', rfl⟩ := mem_combine_succ.mp hds
        obtain ⟨hlen, hne, hflat⟩ := (ih (by omega)).mp ⟨ds', hds', rfl⟩
        refine ⟨by rw [cut, List.length_cons, hlen], ?_, ?_⟩
        · rw [cut, List.forall_mem_cons]
          refine ⟨?_, hne⟩
          rw [← List.length_pos_iff]
          simp
          omega
        · rw [cut, List.flatten_cons, hflat, take_drop_append (by omega) (by omega)]
      · rintro ⟨hlen, hne, hflat⟩
        obtain ⟨p, ps, rfl⟩ := List.exists_cons_of_length_eq_add_one hlen
        obtain ⟨hp, hne⟩ := List.forall_mem_cons.mp hne
        rw [List.flatten_cons] at hflat
        have hpos := List.length_pos_iff.mpr hp
        have hlength := congrArg List.length hflat
        have hle := length_le_flatten hne
        rw [List.length_append, List.length_drop] at hlength
        rw [List.length_cons, Nat.add_right_cancel_iff] at hlen
        have hrest : ps.flatten = l.drop (start + p.length) := by
          rw [← List.drop_drop, ← hflat, List.drop_left]
        obtain ⟨ds, hds, rfl⟩ := (ih (by omega)).mpr ⟨hlen, hne, hrest⟩
        refine ⟨(start + p.length) :: ds, ?_, ?_⟩
        · apply mem_combine_succ.mpr ⟨_, ds, by omega, by omega, hds, rfl⟩
        · rw [cut, List.drop_take, Nat.add_sub_cancel_left, ← hflat, List.take_left]

/-- The parts of a division of the whole list. -/
theorem cut_spec (hl : l ≠ []) (hds : ds ∈ combine k 1 (l.length - 1)) :
  (cut l 0 ds).length = k + 1 ∧ (∀ p ∈ cut l 0 ds, p ≠ []) ∧ (cut l 0 ds).flatten = l
  := (exists_cut (List.length_pos_iff.mpr hl)).mp ⟨ds, hds, rfl⟩

theorem exists_cut_eq (hl : l ≠ []) (hlen : ps.length = k + 1) (hne : ∀ p ∈ ps, p ≠ [])
    (hflat : ps.flatten = l) :
  ∃ ds ∈ combine k 1 (l.length - 1), cut l 0 ds = ps
  := (exists_cut (List.length_pos_iff.mpr hl)).mpr ⟨hlen, hne, hflat⟩

/-- No word of the code goes on after another one. -/
def PrefixFree (C : List α → Prop) : Prop :=
  ∀ w w' u v, C w → C w' → w ++ u = w' ++ v → w = w'

/-- There is one division into words of such a code, and it is found without the last word. -/
theorem PrefixFree.parts_unique {C : List α → Prop} (hC : PrefixFree C) {ps' : List (List α)}
    (hlen : ps'.length = ps.length) (hflat : ps'.flatten = ps.flatten) (hps : ∀ p ∈ ps, C p)
    (hps' : ∀ p ∈ ps'.dropLast, C p) :
  ps' = ps
  := by
  induction ps generalizing ps' with
  | nil => exact List.length_eq_zero_iff.mp hlen
  | cons p ps ih =>
      obtain ⟨p', ps', rfl⟩ := List.exists_cons_of_length_eq_add_one hlen
      rw [List.length_cons, List.length_cons, Nat.add_right_cancel_iff] at hlen
      obtain ⟨hp, hrest⟩ := List.forall_mem_cons.mp hps
      by_cases hnil : ps = []
      · subst hnil
        obtain rfl := List.length_eq_zero_iff.mp hlen
        simpa using hflat
      · have hne' : ps' ≠ [] := by
          rintro rfl
          apply hnil (List.length_eq_zero_iff.mp hlen.symm)
        rw [List.dropLast_cons_of_ne_nil hne'] at hps'
        obtain ⟨hp', hps'⟩ := List.forall_mem_cons.mp hps'
        rw [List.flatten_cons, List.flatten_cons] at hflat
        obtain rfl := hC p' p _ _ hp' hp hflat
        rw [ih hlen (List.append_cancel_left hflat) hrest hps']

end Divisions
