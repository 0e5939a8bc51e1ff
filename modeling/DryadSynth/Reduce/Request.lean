import DryadSynth.Library.LIA.Closed

/-!
# Requests with fewer arguments

A function to synthesize is replaced by one that has some of the arguments only, in the
declaration and in the calls.  Solutions of the rewritten constraint are the solutions of the
original one that do not depend on the other arguments.
-/

namespace Sygus.Reduce

open LIA

/-- A function to synthesize, with its arguments and those of them that are used. -/
structure Request where
  func : FuncDecl
  requestArgs : List Var
  requestUsedArgs : List Var

namespace Request

variable (r : Request)

/-- The symbol on the used arguments. -/
def rdcdFunc : FuncDecl := ⟨r.func.name, r.requestUsedArgs.map Var.sort, r.func.range⟩

/-- The function as a call of the reduced one. -/
def df : Definition := ⟨r.requestArgs, .func r.rdcdFunc (r.requestUsedArgs.map .var)⟩

/-- The values of the used arguments. -/
def select (vs : List Value) : List Value :=
  (Model.bind default r.requestArgs vs).values r.requestUsedArgs

/-- The declared sorts are those of the arguments, which have different names, and the used
arguments are among them. -/
structure WellFormed (r : Request) : Prop where
  domain : r.func.domain = r.requestArgs.map Var.sort
  nodup : r.requestArgs.Nodup
  used : r.requestUsedArgs ⊆ r.requestArgs

end Request

/-- An interpretation of function symbols. -/
abbrev Interp := FuncDecl → List Value → Value

/-- The model in which the symbols `fs` are those of an interpretation. -/
def withFuncs (M : Model) (fs : List FuncDecl) (F : Interp) : Model :=
  { M with func := fun f => if f ∈ fs then F f else M.func f }

/-- Rewrite the constraint for all requests. -/
def rewriteAll (rs : List Request) (e : Expr) : Expr :=
  rs.foldl (fun e r => e.expand r.func r.df) e

/-- Interpretations of the reduced symbols, read as functions of all arguments. -/
def read (rs : List Request) (H : Interp) : Interp := fun f vs =>
  match rs.find? fun r => r.func = f with
  | some r => H r.rdcdFunc (r.select vs)
  | none => .int 0

/-- The requests are well formed and have different names. -/
structure WellFormedAll (rs : List Request) : Prop where
  wellFormed : ∀ r ∈ rs, r.WellFormed
  names : (rs.map fun r => r.func.name).Nodup

section Rewrite

variable {M : Model} {rs : List Request} {r : Request} {e : Expr} {F H : Interp}
variable {vs : List Value}

theorem Request.WellFormed.defines (h : r.WellFormed) :
  Defines r.func r.df
  := by
  refine ⟨h.domain, sort_func.mpr ⟨rfl, ?_⟩⟩
  change (r.requestUsedArgs.map Expr.var).map Expr.sort
    = (r.requestUsedArgs.map Var.sort).map some
  rw [List.map_map, List.map_map]
  rfl

theorem Request.WellFormed.eval_df (h : r.WellFormed) (hfits : Fits r.requestArgs vs) :
  (r.df.eval M vs) = (M.func r.rdcdFunc (r.select vs)).cast r.func.range
  := by
  have hvalues : (M.bind r.requestArgs vs).values r.requestUsedArgs = r.select vs := by
    apply List.map_congr_left
    intro x hx
    apply value_bind h.nodup hfits (h.used hx)
  rw [Definition.eval]
  change (Expr.func r.rdcdFunc (r.requestUsedArgs.map .var)).eval _ = _
  rw [eval_app, eval_map_var]
  change (M.func r.rdcdFunc ((M.bind r.requestArgs vs).values r.requestUsedArgs)).cast _ = _
  rw [hvalues]
  rfl

theorem WellFormedAll.cons (hrs : WellFormedAll (r :: rs)) :
  r.WellFormed ∧ WellFormedAll rs ∧ ∀ r' ∈ rs, r'.func.name ≠ r.func.name
  := by
  have hnames := hrs.names
  rw [List.map_cons, List.nodup_cons] at hnames
  refine ⟨hrs.wellFormed r List.mem_cons_self, ⟨?_, hnames.2⟩, ?_⟩
  · intro r' hr'
    apply hrs.wellFormed r' (List.mem_cons_of_mem _ hr')
  · intro r' hr' heq
    apply hnames.1 (List.mem_map.mpr ⟨r', hr', heq⟩)

/-- A request is found by what it alone has. -/
theorem WellFormedAll.find {p : Request → Bool} (hrs : WellFormedAll rs) (hr : r ∈ rs)
    (hp : p r) (hname : ∀ r', p r' → r'.func.name = r.func.name) :
  rs.find? p = some r
  := by
  induction rs with
  | nil => cases hr
  | cons r' rs ih =>
      obtain ⟨-, hrs', hnames⟩ := hrs.cons
      rcases List.mem_cons.mp hr with rfl | hr
      · rw [List.find?_cons_of_pos hp]
      · rw [List.find?_cons_of_neg, ih hrs' hr]
        intro hp'
        apply hnames r hr (hname r' hp').symm

theorem WellFormedAll.read_func (hrs : WellFormedAll rs) (hr : r ∈ rs) (vs : List Value) :
  read rs H r.func vs = H r.rdcdFunc (r.select vs)
  := by
  rw [read, hrs.find hr (by simp)]
  intro r' hr'
  rw [of_decide_eq_true hr']

/-- The model in which the requests are defined by their reduced symbols. -/
def defineAll (rs : List Request) (M : Model) : Model :=
  rs.foldr (fun r M => M.define r.func r.df) M

theorem WellFormedAll.holds_rewriteAll_defineAll (hrs : WellFormedAll rs)
    (hs : e.sort = some .bool) :
  (rewriteAll rs e).Holds M ↔ e.Holds (defineAll rs M)
  := by
  induction rs generalizing e with
  | nil => rfl
  | cons r rs ih =>
      obtain ⟨hr, hrs', -⟩ := hrs.cons
      have h := ih hrs' (hr.defines.sort_expand hs)
      rw [rewriteAll] at h
      rw [rewriteAll, List.foldl_cons, h, hr.defines.holds_expand hs]
      rfl

theorem WellFormedAll.sort_rewriteAll (hrs : WellFormedAll rs) (hs : e.sort = some .bool) :
  (rewriteAll rs e).sort = some .bool
  := by
  induction rs generalizing e with
  | nil => exact hs
  | cons r rs ih =>
      obtain ⟨hr, hrs', -⟩ := hrs.cons
      apply ih hrs' (hr.defines.sort_expand hs)

theorem var_defineAll :
  (defineAll rs M).var = M.var
  := by
  induction rs with
  | nil => rfl
  | cons r rs ih => exact ih

theorem func_defineAll_of_not_mem {f : FuncDecl} (hf : f ∉ rs.map Request.func) :
  (defineAll rs M).func f = M.func f
  := by
  induction rs with
  | nil => rfl
  | cons r rs ih =>
      rw [List.map_cons, List.mem_cons, not_or] at hf
      rw [← ih hf.2]
      apply Function.update_of_ne hf.1 _ _

theorem WellFormedAll.func_defineAll (hrs : WellFormedAll rs) (hr : r ∈ rs)
    (hfits : Fits r.requestArgs vs) :
  (defineAll rs M).func r.func vs = (M.func r.rdcdFunc (r.select vs)).cast r.func.range
  := by
  induction rs with
  | nil => cases hr
  | cons r' rs ih =>
      obtain ⟨hr', hrs', hnames⟩ := hrs.cons
      rcases List.mem_cons.mp hr with rfl | hr
      · have hnot : r.rdcdFunc ∉ rs.map Request.func := by
          rw [List.mem_map]
          rintro ⟨r', hr', heq⟩
          apply hnames r' hr' (by rw [heq]; rfl)
        rw [← func_defineAll_of_not_mem (M := M) hnot, ← hr'.eval_df hfits]
        simp only [defineAll, List.foldr_cons, Model.define, Model.withFunc,
          Function.update_self]
      · have hne : r.func ≠ r'.func := fun heq => hnames r hr (by rw [heq])
        rw [← ih hrs' hr]
        simp only [defineAll, List.foldr_cons, Model.define, Model.withFunc,
          Function.update_of_ne hne]

/-- An interpretation solves the rewritten constraint when, read as functions of all arguments,
it solves the original one. -/
theorem WellFormedAll.holds_rewriteAll (hrs : WellFormedAll rs) (hs : e.sort = some .bool)
    (hfuncs : ∀ f ∈ e.funcs, f ∈ rs.map Request.func) :
  (rewriteAll rs e).Holds (withFuncs M (rs.map Request.rdcdFunc) H)
    ↔ e.Holds (withFuncs M (rs.map Request.func) (read rs H))
  := by
  rw [hrs.holds_rewriteAll_defineAll hs, Expr.Holds, Expr.Holds, eval_congr_func hs]
  · intro x _
    rw [Model.value, Model.value, var_defineAll]
    rfl
  · intro f hf vs hvs
    obtain ⟨r, hr, rfl⟩ := List.mem_map.mp (hfuncs f hf)
    have hfits : Fits r.requestArgs vs := hvs.trans (hrs.wellFormed r hr).domain
    rw [hrs.func_defineAll hr hfits]
    simp only [withFuncs]
    rw [if_pos (List.mem_map_of_mem hr), if_pos (List.mem_map_of_mem hr), hrs.read_func hr,
      Value.cast_of_sort (Value.sort_cast _ _)]

/-- The interpretation does not depend on the arguments that are not used. -/
def Independent (rs : List Request) (F : Interp) : Prop :=
  ∀ r ∈ rs, ∀ vs ws, Fits r.requestArgs vs → Fits r.requestArgs ws → r.select vs = r.select ws →
    (F r.func vs).cast r.func.range = (F r.func ws).cast r.func.range

/-- Values for all arguments, from those for the used ones. -/
def Request.fill (r : Request) (us : List Value) : List Value :=
  (Model.bind default r.requestUsedArgs us).values r.requestArgs

/-- Interpretations of the original symbols at filled up arguments. -/
def restrict (rs : List Request) (F : Interp) : Interp := fun g us =>
  match rs.find? fun r => r.rdcdFunc = g with
  | some r => F r.func (r.fill us)
  | none => .int 0

/-- Filling up does not change the values of the used arguments. -/
theorem Request.WellFormed.select_fill (h : r.WellFormed) (hused : r.requestUsedArgs.Nodup)
    (vs : List Value) :
  r.select (r.fill (r.select vs)) = r.select vs
  := by
  have hfill : Fits r.requestArgs (r.fill (r.select vs)) := fits_values _ _
  have hselect : Fits r.requestUsedArgs (r.select vs) := fits_values _ _
  have hvalues := values_bind (M := default) h.nodup hfill
  have hvalues' := values_bind (M := default) hused hselect
  conv_rhs => rw [← hvalues']
  apply List.map_congr_left
  intro x hx
  apply List.map_inj_left.mp hvalues x (h.used hx)

theorem WellFormedAll.read_restrict (hrs : WellFormedAll rs) (hr : r ∈ rs) (vs : List Value) :
  read rs (restrict rs F) r.func vs = F r.func (r.fill (r.select vs))
  := by
  rw [hrs.read_func hr, restrict, hrs.find hr (by simp)]
  intro r' hr'
  have h := congrArg FuncDecl.name (of_decide_eq_true hr')
  apply h

/-- The rewritten constraint has a solution when the original one has a solution that does not
depend on the arguments that are not used. -/
theorem WellFormedAll.exists_rewriteAll_iff (hrs : WellFormedAll rs)
    (hused : ∀ r ∈ rs, r.requestUsedArgs.Nodup) (hs : e.sort = some .bool)
    (hfuncs : ∀ f ∈ e.funcs, f ∈ rs.map Request.func) :
  (∃ H, ∀ M, (rewriteAll rs e).Holds (withFuncs M (rs.map Request.rdcdFunc) H))
    ↔ ∃ F, (∀ M, e.Holds (withFuncs M (rs.map Request.func) F)) ∧ Independent rs F
  := by
  simp only [hrs.holds_rewriteAll hs hfuncs]
  constructor
  · rintro ⟨H, hH⟩
    use read rs H, hH
    intro r hr vs ws _ _ hselect
    rw [hrs.read_func hr, hrs.read_func hr, hselect]
  · rintro ⟨F, hF, hindep⟩
    use restrict rs F
    intro M
    have heval : e.eval (withFuncs M (rs.map Request.func) (read rs (restrict rs F)))
        = e.eval (withFuncs M (rs.map Request.func) F) := by
      apply eval_congr_func hs
      · intro x _
        rfl
      · intro f hf vs hvs
        obtain ⟨r, hr, rfl⟩ := List.mem_map.mp (hfuncs f hf)
        have hfits : Fits r.requestArgs vs := hvs.trans (hrs.wellFormed r hr).domain
        simp only [withFuncs]
        rw [if_pos (List.mem_map_of_mem hr), if_pos (List.mem_map_of_mem hr),
          hrs.read_restrict hr]
        apply hindep r hr _ _ (fits_values _ _) hfits
        apply (hrs.wellFormed r hr).select_fill (hused r hr) vs
    rw [Expr.Holds, heval]
    apply hF M

end Rewrite

end Sygus.Reduce
