import DryadSynth.Chatgpt.Python

/-!
# Integer literals of Python

The translator reads the digits that a literal starts with, after the prefix `0x` or `0b` if it
has one.  That is the value of a literal that is read as a whole, and of one that is zero.
-/

namespace DryadSynth

namespace Python

/-- A literal that is read as a whole: it has no underscore, and of the prefixes only `0x` and
`0b`. -/
def Plain (cs : List Char) : Prop :=
  '_' ∉ cs ∧ ∀ c ∈ ['X', 'o', 'O', 'B'], ¬ ['0', c] <+: cs

/-! ### Digits -/

theorem digit_underscore (radix : ℕ) :
  digit radix '_' = none
  := by
  simp [digit]

theorem digitGroups_cons {radix : ℕ} {c : Char} (hc : (digit radix c).isSome) (cs : List Char) :
  digitGroups radix (c :: cs) = (digitGroups radix cs).map (c :: ·)
  := by
  rw [digitGroups, if_pos hc]
  rintro c' cs' rfl -
  rw [digit_underscore] at hc
  cases hc

/-- The digits that the text starts with. -/
def digitsOf (radix : ℕ) (cs : List Char) : List Char :=
  cs.takeWhile fun c => (digit radix c).isSome

theorem digitsOf_cons_of_pos {radix : ℕ} {c : Char} (hc : (digit radix c).isSome)
    (cs : List Char) :
  digitsOf radix (c :: cs) = c :: digitsOf radix cs
  := by
  simp [digitsOf, hc]

theorem digitsOf_cons_of_neg {radix : ℕ} {c : Char} (hc : ¬ (digit radix c).isSome)
    (cs : List Char) :
  digitsOf radix (c :: cs) = []
  := by
  simp [digitsOf, hc]

/-- The digits up to the first underscore are the first digits of the literal. -/
theorem digitsOf_prefix {radix : ℕ} {cs ds : List Char} (h : digitGroups radix cs = some ds) :
  digitsOf radix cs <+: ds
  := by
  induction cs generalizing ds with
  | nil => exact List.nil_prefix
  | cons c cs ih =>
      by_cases hc : (digit radix c).isSome
      · rw [digitGroups_cons hc] at h
        obtain ⟨ds', hds', rfl⟩ := Option.map_eq_some_iff.mp h
        rw [digitsOf_cons_of_pos hc]
        apply List.cons_prefix_cons.mpr ⟨rfl, ih hds'⟩
      · rw [digitsOf_cons_of_neg hc]
        apply List.nil_prefix

theorem digitsOf_of_not_mem {radix : ℕ} {cs ds : List Char} (hcs : '_' ∉ cs)
    (h : digitGroups radix cs = some ds) :
  digitsOf radix cs = ds
  := by
  induction cs generalizing ds with
  | nil =>
      cases h
      rfl
  | cons c cs ih =>
      rw [List.mem_cons, not_or] at hcs
      rw [digitGroups] at h
      · split at h
        next hc =>
          obtain ⟨ds', hds', rfl⟩ := Option.map_eq_some_iff.mp h
          rw [digitsOf_cons_of_pos hc, ih hcs.2 hds']
        next => cases h
      · rintro c' cs' rfl
        apply absurd rfl hcs.1

theorem ofDigits_append_le {radix : ℕ} (hradix : 0 < radix) (cs ds : List Char) :
  ofDigits radix cs ≤ ofDigits radix (cs ++ ds)
  := by
  induction ds using List.reverseRecOn with
  | nil => simp
  | append_singleton ds c ih =>
      rw [← List.append_assoc, ofDigits_append_singleton]
      have := Nat.le_mul_of_pos_right (ofDigits radix (cs ++ ds)) hradix
      omega

theorem ofDigits_append_lt {radix : ℕ} (hradix : 2 ≤ radix) (cs : List Char) {ds : List Char}
    (hds : ds ≠ []) (hpos : 0 < ofDigits radix (cs ++ ds)) :
  ofDigits radix cs < ofDigits radix (cs ++ ds)
  := by
  induction ds using List.reverseRecOn with
  | nil => exact absurd rfl hds
  | append_singleton ds c _ =>
      have hle := ofDigits_append_le (by omega : 0 < radix) cs ds
      rw [← List.append_assoc, ofDigits_append_singleton] at hpos ⊢
      rcases Nat.eq_zero_or_pos (ofDigits radix (cs ++ ds)) with hzero | hdigits
      · omega
      · have hdouble := Nat.mul_le_mul_left (ofDigits radix (cs ++ ds)) hradix
        omega

/-- The digits before an underscore are not all digits of the literal. -/
theorem digitsOf_ne {radix : ℕ} {cs ds : List Char} (hcs : '_' ∈ cs)
    (h : digitGroups radix cs = some ds) :
  digitsOf radix cs ≠ ds
  := by
  induction cs generalizing ds with
  | nil => cases hcs
  | cons c cs ih =>
      by_cases hc : (digit radix c).isSome
      · rw [digitGroups_cons hc] at h
        obtain ⟨ds', hds', rfl⟩ := Option.map_eq_some_iff.mp h
        rw [digitsOf_cons_of_pos hc]
        intro heq
        have hmem : '_' ∈ cs := by
          rcases List.mem_cons.mp hcs with rfl | hmem
          · rw [digit_underscore] at hc
            cases hc
          · apply hmem
        apply ih hmem hds' (List.cons.inj heq).2
      · rw [digitsOf_cons_of_neg hc]
        rintro rfl
        unfold digitGroups at h
        split at h
        next heq => cases heq
        next =>
          split at h
          next => simp at h
          next => cases h
        next =>
          split at h
          next => simp at h
          next => cases h

/-- The number that is read stops short of the value. -/
theorem ofDigits_digitsOf_lt {radix : ℕ} (hradix : 2 ≤ radix) {cs ds : List Char}
    (hcs : '_' ∈ cs) (h : digitGroups radix cs = some ds) (hpos : 0 < ofDigits radix ds) :
  ofDigits radix (digitsOf radix cs) < ofDigits radix ds
  := by
  obtain ⟨ds', hds'⟩ := digitsOf_prefix h
  rw [← hds'] at hpos ⊢
  apply ofDigits_append_lt hradix _ _ hpos
  rintro rfl
  rw [List.append_nil] at hds'
  apply digitsOf_ne hcs h hds'

/-- The digits that are read are the value exactly if the literal has no underscore or is
zero. -/
theorem ofDigits_digitsOf {radix : ℕ} (hradix : 2 ≤ radix) {cs ds : List Char}
    (h : digitGroups radix cs = some ds) :
  ofDigits radix (digitsOf radix cs) ≤ ofDigits radix ds ∧
    (ofDigits radix (digitsOf radix cs) = ofDigits radix ds ↔
      '_' ∉ cs ∨ ofDigits radix ds = 0)
  := by
  by_cases hcs : '_' ∈ cs
  · rcases Nat.eq_zero_or_pos (ofDigits radix ds) with hzero | hpos
    · obtain ⟨ds', hds'⟩ := digitsOf_prefix h
      have hle := ofDigits_append_le (by omega : 0 < radix) (digitsOf radix cs) ds'
      rw [hds', hzero] at hle
      rw [hzero]
      exact ⟨hle, fun _ => .inr rfl, fun _ => by omega⟩
    · have hlt := ofDigits_digitsOf_lt hradix hcs h hpos
      refine ⟨by omega, fun heq => by omega, ?_⟩
      rintro (hnot | hzero)
      · apply absurd hcs hnot
      · omega
  · rw [digitsOf_of_not_mem hcs h]
    exact ⟨le_rfl, fun _ => .inl hcs, fun _ => rfl⟩

/-! ### Reading -/

/-- One of the alternatives of `u64_constant_python`. -/
def read (pre : List Char) (radix : ℕ) (cs : List Char) : Option (BitVec 64) :=
  (radixConstant pre radix cs).map Prod.snd

theorem u64ConstantPython_eq (text : String) :
  u64ConstantPython text = (read ['0', 'x'] 16 text.toList).or
    ((read ['0', 'b'] 2 text.toList).or (read [] 10 text.toList))
  := by
  rw [u64ConstantPython, Option.map_or, Option.map_or]
  rfl

theorem read_of_not_prefix {pre cs : List Char} (radix : ℕ) (h : ¬ pre <+: cs) :
  read pre radix cs = none
  := by
  rw [read, radixConstant, if_neg h]
  rfl

theorem read_append (pre : List Char) (radix : ℕ) (cs : List Char) :
  read pre radix (pre ++ cs)
    = if digitsOf radix cs = [] then none else fromStrRadix radix (digitsOf radix cs)
  := by
  rw [read, radixConstant, if_pos (List.prefix_append pre cs), List.drop_left,
    List.span_eq_takeWhile_dropWhile]
  dsimp only
  rw [digitsOf]
  split
  next => rfl
  next =>
    rw [Option.map_map]
    apply Option.map_id'

theorem read_digits (pre : List Char) {cs : List Char} {radix : ℕ}
    (hlt : ofDigits radix (digitsOf radix cs) < 2 ^ 64) (hne : digitsOf radix cs ≠ []) :
  read pre radix (pre ++ cs) = some (BitVec.ofNat 64 (ofDigits radix (digitsOf radix cs)))
  := by
  rw [read_append, if_neg hne, fromStrRadix, if_pos hlt]

/-- A zero before something that is no digit is read as a zero. -/
theorem read_zero {c : Char} (hc : ¬ (digit 10 c).isSome) (cs : List Char) :
  read [] 10 ('0' :: c :: cs) = some 0
  := by
  rw [← List.nil_append ('0' :: c :: cs), read_append, digitsOf_cons_of_pos (by decide),
    digitsOf_cons_of_neg hc]
  decide

/-- The digits after a prefix are read, or the zero of the prefix if there are none. -/
theorem read_prefixed {c : Char} (hc : ¬ (digit 10 c).isSome) {radix : ℕ} {cs : List Char}
    (hlt : ofDigits radix (digitsOf radix cs) < 2 ^ 64) :
  (read ['0', c] radix ('0' :: c :: cs)).or (read [] 10 ('0' :: c :: cs))
    = some (BitVec.ofNat 64 (ofDigits radix (digitsOf radix cs)))
  := by
  by_cases hne : digitsOf radix cs = []
  · have hread : read ['0', c] radix (['0', c] ++ cs) = none := by
      rw [read_append, if_pos hne]
    rw [hne, read_zero hc]
    exact congrArg (fun o => Option.or o (some 0)) hread
  · have hread := read_digits ['0', c] hlt hne
    exact congrArg (fun o => Option.or o (read [] 10 ('0' :: c :: cs))) hread

theorem ofDigits_zeros {ds : List Char} (h : ds.all (· = '0')) :
  ofDigits 10 ('0' :: ds) = 0
  := by
  have hds : ds = List.replicate ds.length '0' := by
    rw [List.eq_replicate_iff]
    refine ⟨rfl, ?_⟩
    intro c hc
    simpa using List.all_eq_true.mp h c hc
  rw [hds, ← List.replicate_succ]
  induction ds.length + 1 with
  | zero => rfl
  | succ n ih =>
      rw [List.replicate_succ', ofDigits_append_singleton, ih]
      decide

/-- The text is read as a number that is at most the value, and is the value exactly if the
literal is read as a whole or is zero. -/
def ReadAs (text : String) (v : ℕ) : Prop :=
  ∃ k, u64ConstantPython text = some (BitVec.ofNat 64 k) ∧ k ≤ v ∧
    (k = v ↔ Plain text.toList ∨ v = 0)

/-- A number after a prefix that is no prefix of the translator is read as zero. -/
theorem letter_spec {c : Char} (hletter : c ∈ ['X', 'o', 'O', 'B']) {cs : List Char}
    {text : String} (htext : text.toList = '0' :: c :: cs) (v : ℕ) :
  ReadAs text v
  := by
  have hnot : ¬ Plain ('0' :: c :: cs) := by
    rintro ⟨-, hplain⟩
    apply hplain c hletter ⟨cs, rfl⟩
  refine ⟨0, ?_, Nat.zero_le v, ?_⟩
  · rw [u64ConstantPython_eq, htext, read_of_not_prefix, read_of_not_prefix, read_zero]
    · rfl
    · fin_cases hletter <;> decide
    · rw [List.cons_prefix_cons, List.cons_prefix_cons]
      rintro ⟨-, rfl, -⟩
      apply absurd hletter (by decide)
    · rw [List.cons_prefix_cons, List.cons_prefix_cons]
      rintro ⟨-, rfl, -⟩
      apply absurd hletter (by decide)
  · rw [htext]
    constructor
    · intro heq
      exact .inr heq.symm
    · rintro (hplain | rfl)
      · apply absurd hplain hnot
      · rfl

/-- A number after a prefix of the translator. -/
theorem prefixed_spec {c : Char} (hc : ¬ (digit 10 c).isSome) (hx : c = 'x' ∨ c = 'b')
    {radix : ℕ} (hradix : 2 ≤ radix) {cs : List Char} {text : String}
    (htext : text.toList = '0' :: c :: cs)
    (hread : u64ConstantPython text
      = (read ['0', c] radix ('0' :: c :: cs)).or (read [] 10 ('0' :: c :: cs)))
    {v : ℕ} (h : prefixed radix cs = some v) (hlt : v < 2 ^ 64) :
  ReadAs text v
  := by
  rw [prefixed] at h
  split at h
  next => cases h
  next =>
    obtain ⟨ds, hds, rfl⟩ := Option.map_eq_some_iff.mp h
    obtain ⟨hle, heq⟩ := ofDigits_digitsOf hradix hds
    refine ⟨_, ?_, hle, ?_⟩
    · rw [hread]
      apply read_prefixed hc (by omega)
    · have hplain : Plain text.toList ↔ '_' ∉ cs := by
        rw [htext, Plain]
        rcases hx with rfl | rfl <;> simp [List.cons_prefix_cons]
      rw [heq, hplain]

/-- A decimal number. -/
theorem decimal_spec {c : Char} {cs ds : List Char} (hc : (digit 10 c).isSome)
    (hds : digitGroups 10 cs = some ds) {text : String} (htext : text.toList = c :: cs)
    (hread : u64ConstantPython text = read [] 10 (c :: cs))
    (hplain : ∀ c' ∈ ['X', 'o', 'O', 'B'], ¬ ['0', c'] <+: c :: cs)
    (hlt : ofDigits 10 (c :: ds) < 2 ^ 64) :
  ReadAs text (ofDigits 10 (c :: ds))
  := by
  have hgroups : digitGroups 10 (c :: cs) = some (c :: ds) := by
    rw [digitGroups_cons hc, hds]
    rfl
  obtain ⟨hle, heq⟩ := ofDigits_digitsOf (by decide) hgroups
  refine ⟨_, ?_, hle, ?_⟩
  · rw [hread]
    apply read_digits [] (by omega)
    rw [digitsOf_cons_of_pos hc]
    apply List.cons_ne_nil _ _
  · rw [heq, htext, Plain, and_iff_left hplain]

/-- How a literal below `2 ^ 64` is read. -/
theorem literal_spec {text : String} {v : ℕ} (h : literal text.toList = some v)
    (hlt : v < 2 ^ 64) :
  ReadAs text v
  := by
  generalize htext : text.toList = cs at h
  unfold literal at h
  split at h
  next cs =>
    apply prefixed_spec (by decide) (.inl rfl) (by decide) htext _ h hlt
    rw [u64ConstantPython_eq, htext, read_of_not_prefix 2 (by simp [List.cons_prefix_cons]),
      Option.none_or]
  next cs => apply letter_spec (by decide) htext
  next cs => apply letter_spec (by decide) htext
  next cs => apply letter_spec (by decide) htext
  next cs =>
    apply prefixed_spec (by decide) (.inr rfl) (by decide) htext _ h hlt
    rw [u64ConstantPython_eq, htext, read_of_not_prefix 16 (by simp [List.cons_prefix_cons]),
      Option.none_or]
  next cs => apply letter_spec (by decide) htext
  next cs hx hX ho hO hb hB =>
    obtain ⟨ds, hds, hzero⟩ := Option.bind_eq_some_iff.mp h
    split at hzero
    next hall =>
      cases hzero
      have hspec := decimal_spec (c := '0') (by decide) hds htext
      rw [ofDigits_zeros hall] at hspec
      apply hspec
      · rw [u64ConstantPython_eq, htext, read_of_not_prefix, read_of_not_prefix, Option.none_or,
          Option.none_or]
        · rintro ⟨cs', hcs'⟩
          cases hcs'
          apply hb _ rfl
        · rintro ⟨cs', hcs'⟩
          cases hcs'
          apply hx _ rfl
      · rintro c' hc' ⟨cs', hcs'⟩
        cases hcs'
        fin_cases hc'
        · apply hX _ rfl
        · apply ho _ rfl
        · apply hO _ rfl
        · apply hB _ rfl
      · decide
    next => cases hzero
  next c cs _ _ _ _ _ _ hc =>
    split at h
    next hdigit =>
      obtain ⟨ds, hds, rfl⟩ := Option.map_eq_some_iff.mp h
      have hne : ∀ c', ¬ ['0', c'] <+: c :: cs := by
        rintro c' ⟨cs', hcs'⟩
        cases hcs'
        apply hc rfl
      apply decimal_spec hdigit hds htext _ (fun c' _ => hne c') hlt
      rw [u64ConstantPython_eq, htext, read_of_not_prefix _ (hne 'x'),
        read_of_not_prefix _ (hne 'b'), Option.none_or, Option.none_or]
    next => cases h
  next => cases h

/-- A literal below `2 ^ 64` is read as its value exactly if it is read as a whole or is
zero. -/
theorem literal_iff {text : String} {v : ℕ} (h : literal text.toList = some v)
    (hlt : v < 2 ^ 64) :
  u64ConstantPython text = some (BitVec.ofNat 64 v) ↔
    Plain text.toList ∨ literal text.toList = some 0
  := by
  obtain ⟨k, hk, hle, hiff⟩ := literal_spec h hlt
  have hvalue : u64ConstantPython text = some (BitVec.ofNat 64 v) ↔ k = v := by
    rw [hk, Option.some.injEq]
    constructor
    · intro heq
      have htoNat := congrArg BitVec.toNat heq
      rw [BitVec.toNat_ofNat, BitVec.toNat_ofNat, Nat.mod_eq_of_lt (by omega),
        Nat.mod_eq_of_lt hlt] at htoNat
      apply htoNat
    · rintro rfl
      rfl
  rw [hvalue, hiff, h, Option.some.injEq]

end Python

end DryadSynth
