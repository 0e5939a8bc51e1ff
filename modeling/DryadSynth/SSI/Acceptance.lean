import DryadSynth.SSI.Run

/-!
# What the check for single invocation accepts

The check walks through the constraint and notes the functions called in the current comparison.
It forgets them wherever a comparison ends, also one that is nested in another.  The walk is given
here by its events, the calls and the ends of comparisons; the check reads them from the left to
the right.
-/

namespace Sygus.SSI

open LIA

/-- What the walk comes to: a call, or the end of a comparison. -/
inductive Event where
  | call (f : FuncDecl) (args : List Expr)
  | done
  deriving DecidableEq

/-- The event at an application, before its arguments. -/
def entering (args : List Expr) : Op → List Event
  | .func f => [.call f args]
  | _ => []

/-- The event at an application, after its arguments. -/
def leaving (o : Op) : List Event := if isComparison o then [.done] else []

mutual

/-- The events of the walk through an expression. -/
def events : Expr → List Event
  | .num _ => []
  | .var _ => []
  | .app o args => entering args o ++ eventsAll args ++ leaving o

def eventsAll : List Expr → List Event
  | [] => []
  | e :: l => events e ++ eventsAll l

end

mutual

/-- The comparisons in an expression, nested ones included. -/
def comparisons : Expr → List Expr
  | .num _ => []
  | .var _ => []
  | .app o args =>
      if isComparison o then .app o args :: comparisonsAll args else comparisonsAll args

def comparisonsAll : List Expr → List Expr
  | [] => []
  | e :: l => comparisons e ++ comparisonsAll l

end

/-- The check, given the events. -/
def feed (fs : List FuncDecl) : List Event → CallState → Option CallState
  | [], st => some st
  | .call f args :: l, st =>
      let call := isSSICall fs (.func f) args st
      if call.1 then feed fs l call.2 else none
  | .done :: l, st => feed fs l ⟨st.callCache, []⟩

/-- The number of calls of a function in an expression. -/
def occurrences (f : FuncDecl) (e : Expr) : ℕ := (e.calls.filter fun c => c.1 = f).length

section Walk

variable {fs : List FuncDecl} {e : Expr} {l l' : List Event} {st st' : CallState}

theorem feed_append :
  feed fs (l ++ l') st = (feed fs l st).bind (feed fs l')
  := by
  induction l generalizing st with
  | nil => rfl
  | cons ev l ih =>
      cases ev with
      | call f args =>
          simp only [List.cons_append, feed]
          split
          · apply ih
          · rfl
      | done => exact ih

theorem isSSIAll_false (args : List Expr) :
  isSSIAll fs args false st = (false, st)
  := by
  induction args with
  | nil => rfl
  | cons e l ih => rw [isSSIAll, if_neg Bool.false_ne_true, ih]

theorem feed_isSSIAll {args : List Expr}
    (ih : ∀ e ∈ args, ∀ st, (isSSI fs e st).1 = true →
      feed fs (events e) st = some (isSSI fs e st).2)
    (h : (isSSIAll fs args true st).1 = true) :
  feed fs (eventsAll args) st = some (isSSIAll fs args true st).2
  := by
  induction args generalizing st with
  | nil => rfl
  | cons e l ihl =>
      rw [isSSIAll, if_pos rfl] at h ⊢
      dsimp only at h ⊢
      cases hresult : (isSSI fs e st).1 with
      | false =>
          rw [hresult, isSSIAll_false] at h
          cases h
      | true =>
          rw [hresult] at h
          rw [eventsAll, feed_append, ih e List.mem_cons_self st hresult, Option.bind_some]
          exact ihl (fun d hd => ih d (List.mem_cons_of_mem e hd)) h

theorem feed_entering (o : Op) (args : List Expr) :
  feed fs (entering args o) st
    = if (isSSICall fs o args st).1 then some (isSSICall fs o args st).2 else none
  := by
  cases o with
  | func f => rfl
  | _ => rfl

theorem feed_leaving (o : Op) :
  feed fs (leaving o) st = some (if isComparison o then ⟨st.callCache, []⟩ else st)
  := by
  rw [leaving]
  split
  · rfl
  · rfl

/-- What the check accepts it accepts event by event. -/
theorem feed_isSSI (h : (isSSI fs e st).1 = true) :
  feed fs (events e) st = some (isSSI fs e st).2
  := by
  induction e generalizing st with
  | num n => rfl
  | var x => rfl
  | app o args ih =>
      rw [isSSI] at h ⊢
      dsimp only at h ⊢
      split at h
      · rename_i hcall
        rw [if_pos hcall, events, feed_append, feed_append, feed_entering, if_pos hcall,
          Option.bind_some, feed_isSSIAll (fun e he st => ih e he) h, Option.bind_some,
          feed_leaving]
      · cases h

/-- What is read to the end is read up to every place in it. -/
theorem exists_feed_of_append (h : feed fs (l ++ l') st = some st') :
  ∃ st₁, feed fs l st = some st₁ ∧ feed fs l' st₁ = some st'
  := by
  rw [feed_append] at h
  apply Option.bind_eq_some_iff.mp h

/-- An accepted call of a function to synthesize. -/
theorem isSSICall_eq {f : FuncDecl} (hf : f ∈ fs) {args : List Expr}
    (h : (isSSICall fs (.func f) args st).1 = true) :
  f.name ∉ st.funcCalled ∧ f.range = .int
    ∧ (∀ args', st.callCache.lookup f.name = some args' → args' = args)
    ∧ f.name ∈ (isSSICall fs (.func f) args st).2.funcCalled
    ∧ (isSSICall fs (.func f) args st).2.callCache.lookup f.name = some args
  := by
  simp only [isSSICall, if_pos hf] at h ⊢
  split at h
  · cases h
  · rename_i hcalled
    split at h
    · cases h
    · rename_i hrange
      rw [if_neg hcalled, if_neg hrange]
      refine ⟨hcalled, not_not.mp hrange, ?_⟩
      cases hlookup : st.callCache.lookup f.name with
      | none => simp
      | some args' =>
          simp only [hlookup] at h
          split at h
          · cases h
          · rename_i hargs
            simp [not_not.mp hargs, hlookup]

/-- A call changes the called functions and the arguments only by adding to them. -/
theorem isSSICall_grows {f : FuncDecl} {args : List Expr} {name : String}
    (h : (isSSICall fs (.func f) args st).1 = true) :
  (name ∈ st.funcCalled → name ∈ (isSSICall fs (.func f) args st).2.funcCalled)
    ∧ ∀ args', st.callCache.lookup name = some args' →
      (isSSICall fs (.func f) args st).2.callCache.lookup name = some args'
  := by
  by_cases hf : f ∈ fs
  · obtain ⟨hcalled, hrange, hsame, -, -⟩ := isSSICall_eq hf h
    simp only [isSSICall, if_pos hf, if_neg hcalled, if_neg (not_not.mpr hrange)]
    cases hlookup : st.callCache.lookup f.name with
    | none =>
        refine ⟨List.mem_cons_of_mem _, fun args' h' => ?_⟩
        have hne : name ≠ f.name := by
          rintro rfl
          rw [hlookup] at h'
          cases h'
        rw [List.lookup_cons, beq_false_of_ne hne, h']
    | some args' =>
        rw [hsame args' hlookup]
        simp only [ne_eq, not_true_eq_false, if_false]
        exact ⟨List.mem_cons_of_mem _, fun _ => id⟩
  · simp only [isSSICall, if_neg hf]
    exact ⟨id, fun _ => id⟩

theorem feed_call {f : FuncDecl} {args : List Expr}
    (h : feed fs (.call f args :: l) st = some st') :
  (isSSICall fs (.func f) args st).1 = true
    ∧ feed fs l (isSSICall fs (.func f) args st).2 = some st'
  := by
  rw [feed] at h
  split at h
  · rename_i hcall
    exact ⟨hcall, h⟩
  · cases h

/-- Reading on keeps the arguments that are noted. -/
theorem feed_callCache (h : feed fs l st = some st') {name : String} {args : List Expr}
    (hargs : st.callCache.lookup name = some args) :
  st'.callCache.lookup name = some args
  := by
  induction l generalizing st with
  | nil =>
      cases h
      apply hargs
  | cons ev l ih =>
      cases ev with
      | call g args' =>
          obtain ⟨hcall, h⟩ := feed_call h
          apply ih h ((isSSICall_grows hcall).2 args hargs)
      | done => exact ih h hargs

/-- The arguments of every accepted call are noted at the end. -/
theorem feed_of_mem {f : FuncDecl} (hf : f ∈ fs) {args : List Expr} (hmem : .call f args ∈ l)
    (h : feed fs l st = some st') :
  f.range = .int ∧ st'.callCache.lookup f.name = some args
  := by
  induction l generalizing st with
  | nil => cases hmem
  | cons ev l ih =>
      cases ev with
      | call g args' =>
          obtain ⟨hcall, h⟩ := feed_call h
          rcases List.mem_cons.mp hmem with heq | hmem
          · cases heq
            obtain ⟨-, hrange, -, -, hlookup⟩ := isSSICall_eq hf hcall
            exact ⟨hrange, feed_callCache h hlookup⟩
          · apply ih hmem h
      | done =>
          rcases List.mem_cons.mp hmem with heq | hmem
          · cases heq
          · apply ih hmem h

/-- A function that was called in the current comparison is called again only after the end of a
comparison. -/
theorem done_before_call {f : FuncDecl} (hf : f ∈ fs) {args : List Expr}
    (hcalled : f.name ∈ st.funcCalled) (hmem : .call f args ∈ l) (h : feed fs l st = some st') :
  [.done, .call f args].Sublist l
  := by
  induction l generalizing st with
  | nil => cases hmem
  | cons ev l ih =>
      cases ev with
      | call g args' =>
          obtain ⟨hcall, h⟩ := feed_call h
          rcases List.mem_cons.mp hmem with heq | hmem
          · cases heq
            apply absurd hcalled (isSSICall_eq hf hcall).1
          · apply (ih ((isSSICall_grows hcall).1 hcalled) hmem h).cons _
      | done =>
          rcases List.mem_cons.mp hmem with heq | hmem
          · cases heq
          · apply (List.singleton_sublist.mpr hmem).cons_cons _

/-- Between two accepted calls of one function a comparison ends. -/
theorem done_between_calls {f : FuncDecl} (hf : f ∈ fs) {args args' : List Expr}
    (hcalls : [.call f args, .call f args'].Sublist l) (h : feed fs l st = some st') :
  [.call f args, .done, .call f args'].Sublist l
  := by
  induction l generalizing st with
  | nil => cases hcalls
  | cons ev l ih =>
      cases hcalls with
      | cons _ hcalls =>
          cases ev with
          | call g args'' => exact (ih hcalls (feed_call h).2).cons _
          | done => exact (ih hcalls h).cons _
      | cons_cons _ hcalls =>
          obtain ⟨hcall, h⟩ := feed_call h
          have hmem := List.singleton_sublist.mp hcalls
          apply (done_before_call hf (isSSICall_eq hf hcall).2.2.2.1 hmem h).cons_cons _

/-- The event is a call of the function. -/
def Event.isCallOf (f : FuncDecl) : Event → Bool
  | .call g _ => g = f
  | .done => false

theorem countP_events (f : FuncDecl) (e : Expr) :
  (events e).countP (Event.isCallOf f) = occurrences f e
  := by
  induction e with
  | num n => rfl
  | var x => rfl
  | app o args ih =>
      have hargs : (eventsAll args).countP (Event.isCallOf f)
          = ((Expr.callsAll args).filter fun c => c.1 = f).length := by
        induction args with
        | nil => rfl
        | cons e l ihl =>
            rw [eventsAll, Expr.callsAll, List.countP_append, List.filter_append,
              List.length_append, ih e List.mem_cons_self,
              ihl fun d hd => ih d (List.mem_cons_of_mem e hd), occurrences]
      have hleaving : (leaving o).countP (Event.isCallOf f) = 0 := by
        rw [leaving]
        split
        · rfl
        · rfl
      rw [events, List.countP_append, List.countP_append, hargs, hleaving, occurrences]
      cases o with
      | func g =>
          rw [Expr.calls, entering, List.countP_singleton, List.filter_cons]
          by_cases hg : g = f
          · simp [Event.isCallOf, hg, Nat.add_comm]
          · simp [Event.isCallOf, hg]
      | _ => simp [Expr.calls, entering]

theorem call_mem_events {f : FuncDecl} {args : List Expr} (h : (f, args) ∈ e.calls) :
  .call f args ∈ events e
  := by
  induction e with
  | num n => cases h
  | var x => cases h
  | app o l ih =>
      have hall : ∀ d ∈ l, ∀ ev ∈ events d, ev ∈ eventsAll l := by
        intro d hd
        clear ih h
        induction l with
        | nil => cases hd
        | cons c l ihl =>
            intro ev hev
            rw [eventsAll, List.mem_append]
            rcases List.mem_cons.mp hd with rfl | hd
            · exact .inl hev
            · exact .inr (ihl hd ev hev)
      rw [events, List.mem_append, List.mem_append]
      rcases mem_calls_app.mp h with ⟨g, rfl, heq⟩ | ⟨d, hd, hcall⟩
      · cases heq
        exact .inl (.inl (by simp [entering]))
      · exact .inl (.inr (hall d hd _ (ih d hd hcall)))

/-- The walk through a comparison is a part of the walk through the expression. -/
theorem events_comparison {c : Expr} (h : c ∈ comparisons e) :
  events c <:+: events e
  := by
  induction e with
  | num n => cases h
  | var x => cases h
  | app o l ih =>
      have hall : c ∈ comparisonsAll l → events c <:+: eventsAll l := by
        clear h
        intro h
        induction l with
        | nil => cases h
        | cons d l ihl =>
            rw [eventsAll]
            rcases List.mem_append.mp h with h | h
            · apply (ih d List.mem_cons_self h).trans (List.prefix_append _ _).isInfix
            · exact (ihl (fun d hd => ih d (List.mem_cons_of_mem _ hd)) h).trans
                (List.suffix_append _ _).isInfix
      have hpart : eventsAll l <:+: events (.app o l) := by
        rw [events]
        apply List.infix_append _ _ _
      rw [comparisons] at h
      split at h
      · rcases List.mem_cons.mp h with rfl | h
        · apply List.infix_rfl
        · apply (hall h).trans hpart
      · apply (hall h).trans hpart

/-- A part of what is read to the end is read. -/
theorem exists_feed_of_infix (hl : l <:+: l') (h : feed fs l' st = some st') :
  ∃ st₁ st₂, feed fs l st₁ = some st₂
  := by
  obtain ⟨l₁, l₂, rfl⟩ := hl
  obtain ⟨st₂, h₂, -⟩ := exists_feed_of_append h
  obtain ⟨st₁, -, h₁⟩ := exists_feed_of_append h₂
  exact ⟨st₁, st₂, h₁⟩

/-- No comparison ends between two calls of one function in another comparison around it. -/
def Unsplit (fs : List FuncDecl) (e : Expr) : Prop :=
  ∀ c ∈ comparisons e, ∀ f ∈ fs, ∀ args args',
    ¬[.call f args, .done, .call f args'].Sublist (events c)

theorem one_lt_occurrences {f : FuncDecl} {args args' : List Expr}
    (h : [.call f args, .done, .call f args'].Sublist (events e)) :
  1 < occurrences f e
  := by
  have hle := h.countP_le (p := Event.isCallOf f)
  rw [countP_events] at hle
  have htwo : 2 ≤ occurrences f e := by simpa [Event.isCallOf] using hle
  omega

theorem exists_calls {f : FuncDecl} (h : 1 < occurrences f e) :
  ∃ args args', [.call f args, .call f args'].Sublist (events e)
  := by
  rw [← countP_events, List.countP_eq_length_filter] at h
  have hsub : ((events e).filter (Event.isCallOf f)).Sublist (events e) := List.filter_sublist
  have hall : ∀ ev ∈ (events e).filter (Event.isCallOf f), ∃ args, ev = .call f args := by
    intro ev hev
    have hcall := (List.mem_filter.mp hev).2
    cases ev with
    | call g args =>
        obtain rfl : g = f := of_decide_eq_true hcall
        exact ⟨args, rfl⟩
    | done => cases hcall
  generalize (events e).filter (Event.isCallOf f) = l at *
  match l with
  | [] => simp at h
  | [_] => simp at h
  | ev :: ev' :: r =>
      obtain ⟨args, rfl⟩ := hall ev (by simp)
      obtain ⟨args', rfl⟩ := hall ev' (by simp)
      refine ⟨args, args', List.Sublist.trans ?_ hsub⟩
      apply ((List.nil_sublist r).cons_cons _).cons_cons _

/-- An accepted constraint has at most one call of a function in each comparison just if no
nested comparison ends between two calls.  The calls of a function have the same arguments, and
the functions called have integers for values. -/
theorem isSSI_iff_unsplit (h : (isSSI fs e ⟨[], []⟩).1 = true) :
  ((∀ c ∈ comparisons e, ∀ f ∈ fs, occurrences f c ≤ 1) ↔ Unsplit fs e)
    ∧ (∀ f ∈ fs, ∀ args args', (f, args) ∈ e.calls → (f, args') ∈ e.calls → args = args')
    ∧ ∀ f ∈ fs, ∀ args, (f, args) ∈ e.calls → f.range = .int
  := by
  have hfeed := feed_isSSI h
  refine ⟨⟨?_, ?_⟩, ?_, ?_⟩
  · intro hone c hc f hf args args' hsplit
    apply absurd (hone c hc f hf) (not_le.mpr (one_lt_occurrences hsplit))
  · intro hunsplit c hc f hf
    by_contra hlt
    obtain ⟨args, args', hcalls⟩ := exists_calls (not_le.mp hlt)
    obtain ⟨st₁, st₂, hc'⟩ := exists_feed_of_infix (events_comparison hc) hfeed
    apply hunsplit c hc f hf args args' (done_between_calls hf hcalls hc')
  · intro f hf args args' hargs hargs'
    have hlookup := (feed_of_mem hf (call_mem_events hargs) hfeed).2
    have hlookup' := (feed_of_mem hf (call_mem_events hargs') hfeed).2
    apply Option.some.inj (hlookup.symm.trans hlookup')
  · intro f hf args hargs
    apply (feed_of_mem hf (call_mem_events hargs) hfeed).1

end Walk

/-! ### A nested comparison -/

/-- A function to synthesize. -/
def unary : FuncDecl := ⟨"f", [.int], .int⟩

/-- Two calls with a conditional between them. -/
def splitConstraint : Expr :=
  let x : Expr := .var ⟨"x", .int⟩
  .ge (.add [.func unary [x], .ite (.ge x (.num 0)) (.num 1) (.num 0), .func unary [x]]) (.num 0)

/-- Two comparisons with one call each. -/
def boundedConstraint : Expr :=
  let x : Expr := .var ⟨"x", .int⟩
  .and [.ge (.func unary [x]) x, .le (.func unary [x]) (.add [x, .num 3])]

theorem isSSI_iff_unsplit_bounded :
  ((∀ c ∈ comparisons boundedConstraint, ∀ f ∈ [unary], occurrences f c ≤ 1)
      ↔ Unsplit [unary] boundedConstraint)
    ∧ (∀ f ∈ [unary], ∀ args args', (f, args) ∈ boundedConstraint.calls →
      (f, args') ∈ boundedConstraint.calls → args = args')
    ∧ ∀ f ∈ [unary], ∀ args, (f, args) ∈ boundedConstraint.calls → f.range = .int
  := isSSI_iff_unsplit (by decide)

/-- The constraint with the conditional is accepted, with two calls in one comparison. -/
theorem isSSI_splitConstraint :
  (isSSI [unary] splitConstraint ⟨[], []⟩).1 = true
    ∧ ¬∀ c ∈ comparisons splitConstraint, ∀ f ∈ [unary], occurrences f c ≤ 1
  := by decide

end Sygus.SSI
