import DryadSynth.General.Ast
import DryadSynth.Library.LIA.Eval

/-!
# The divide and conquer workers of the general track

`DnCEnv.scanSubExprs` makes a subproblem of every conditional below the specification, with a
fresh function of the arguments of the function to synthesise.  The workers solve the problem and
its subproblems, record the first result of each subproblem in the shared environment, and add it
there to the grammars of all problems.  A worker that solved the problem fills the recorded
results in where its tree calls them, until `scanInterResults` finds no call.

A worker takes a problem from the environment, or records in it, under the lock on the
environment; everything else it does on its own copy.  An event is one such action of one
worker, or one iteration of the filling loop, so that every list of events is an interleaving.

Which vectors the solver finds and the verifier accepts is the parameter `found`; the tree is read
off the vector by `expandGeneral`.  The external solver leaves no results, since `ResultParser`
never sets them.

A recorded tree calls only results recorded before it.  `fillEnds_iff` is what follows for the
filling loop: it ends when the calls have arguments, and otherwise only when there are no calls.
-/

namespace Sygus

namespace DnC

/-! ### Problems -/

/-- `SygusProblem.SybType` -/
inductive SybType where
  | literal
  | numeral
  | hex
  | bin
  | glbvar
  | func
  | symbol
  | lclarg
  | cstint
  | cstbol
  | cstbit
  | bool
  deriving DecidableEq, Repr

/-- A production: its first symbol and the others. -/
structure Rule where
  termSyb : String
  args : List String
  deriving DecidableEq, Repr

/-- `SygusProblem.CFG` -/
structure CFG where
  grammarRules : List (String × List Rule)
  sybTypeTbl : String → Option SybType

/-- A `SygusProblem` with one function to synthesise. -/
structure SygusProblem where
  request : LIA.FuncDecl
  requestArgs : List String
  finalConstraint : LIA.Expr
  funcs : List (String × DefinedFunc)
  glbSybTypeTbl : String → Option SybType
  cfg : CFG

namespace SygusProblem

/-- `names.get(0)` -/
def name (p : SygusProblem) : String := p.request.name

/-- The rules of all nonterminals, as `Expand.prepareGrammar` numbers them. -/
def ruleTbl (p : SygusProblem) : List Rule := p.cfg.grammarRules.flatMap Prod.snd

/-- `Expand.resolveSyb` -/
def resolveSyb (p : SygusProblem) (syb : String) : Option SybType :=
  match p.cfg.sybTypeTbl syb with
  | some t => some t
  | none => p.glbSybTypeTbl syb

/-- `grammar.ruleTbl.get(funcIndex).get(ruleIndex)` -/
def ruleAt (p : SygusProblem) : ℤ → Option Rule
  | .ofNat i => p.ruleTbl[i]?
  | .negSucc _ => none

/-- `createSubProblem`, with the name of the fresh declaration. -/
def createSubProblem (p : SygusProblem) (name : String) (subExpr : LIA.Expr)
    (subArgs : List LIA.Expr) : SygusProblem :=
  { p with
    request := { p.request with name := name }
    finalConstraint := .eq (.func { p.request with name := name } subArgs) subExpr }

/-- `addSubSolution`: the function, its type, and its rule `(name Start … Start)`. -/
def addSubSolution (p : SygusProblem) (df : DefinedFunc) : SygusProblem :=
  { p with
    funcs := p.funcs ++ [(df.name, df)]
    glbSybTypeTbl := Function.update p.glbSybTypeTbl df.name (some .func)
    cfg :=
      { p.cfg with
        grammarRules := p.cfg.grammarRules.map fun g =>
          if g.1 = "Start" then
            (g.1, g.2 ++ [⟨df.name, List.replicate df.strArgs.length "Start"⟩])
          else g } }

end SygusProblem

/-- The children of a node, read one after the other. -/
def readArgs {α : Type} (read : List ℤ → Option (α × List ℤ)) :
    ℕ → List ℤ → Option (List α × List ℤ)
  | 0, terms => some ([], terms)
  | k + 1, terms => do
      let (a, terms) ← read terms
      let (l, terms) ← readArgs read k terms
      some (a :: l, terms)

/-- `ASTBuilder.buildAST`: the tree the entries begin with, and the entries after it.  A call reads
an entry before it makes others, so that their number bounds the depth. -/
def buildAST (p : SygusProblem) : ℕ → List ℤ → Option (ASTGeneral × List ℤ)
  | d + 1, ruleIndex :: terms => do
      let rule ← p.ruleAt ruleIndex
      match p.resolveSyb rule.termSyb, terms with
      | some .numeral, _ | some .glbvar, _ | some .lclarg, _ | some .symbol, _ =>
          some (.leaf rule.termSyb, terms)
      | some .cstint, c :: terms => some (.leaf (toString c), terms)
      | some .cstbol, c :: terms => some (.leaf (if c = 0 then "false" else "true"), terms)
      | some .cstint, [] | some .cstbol, [] => none
      | _, _ => do
          let (l, terms) ← readArgs (buildAST p d) rule.args.length terms
          some (.mk rule.termSyb l, terms)
  | _, _ => none

/-- `Expand.expandGeneral` -/
def expandGeneral (p : SygusProblem) (terms : List ℤ) : Option ASTGeneral :=
  (buildAST p terms.length terms).map Prod.fst

/-! ### The shared environment -/

/-- The values of `CEGISEnv.FeedType` the dispatcher sets for `GENERALDNC`. -/
inductive FeedType where
  | allInOne
  | heightOnly
  deriving DecidableEq, Repr

/-- `DnCEnv`.  The results stand in the order they were put. -/
structure DnCEnv where
  feedType : FeedType
  problem : SygusProblem
  dncPblms : List (LIA.Expr × SygusProblem)
  interResultNames : List String
  interResults : List (String × DefinedFunc)

mutual

/-- The conditionals in an expression, itself included, as `scanSubExprs` meets them. -/
def conditionals : LIA.Expr → List LIA.Expr
  | .app .ite args => .app .ite args :: conditionalsAll args
  | .app _ args => conditionalsAll args
  | _ => []

/-- The conditionals in a list of expressions. -/
def conditionalsAll : List LIA.Expr → List LIA.Expr
  | [] => []
  | e :: l => conditionals e ++ conditionalsAll l

end

namespace DnCEnv

/-- The body of `scanSubExprs` for one conditional. -/
def addSubExpr (fresh : ℕ → String) (dncBaseArgs : List LIA.Expr) (env : DnCEnv)
    (expr : LIA.Expr) : DnCEnv :=
  if env.dncPblms.any fun q => q.1 = expr then env
  else
    let subPblm := env.problem.createSubProblem (fresh env.dncPblms.length) expr dncBaseArgs
    { env with
      interResultNames := env.interResultNames ++ [subPblm.name]
      dncPblms := env.dncPblms ++ [(expr, subPblm)] }

/-- The environment after `scanSubExprs`: all conditionals below `dncBaseExpr`, itself excluded.
The name of the `i`-th fresh declaration is `fresh i`. -/
def init (fresh : ℕ → String) (feedType : FeedType) (problem : SygusProblem)
    (dncBaseExpr : LIA.Expr) (dncBaseArgs : List LIA.Expr) : DnCEnv :=
  let start : DnCEnv :=
    { feedType := feedType
      problem := problem
      dncPblms := []
      interResultNames := []
      interResults := [] }
  match dncBaseExpr with
  | .app _ args => (conditionalsAll args).foldl (addSubExpr fresh dncBaseArgs) start
  | _ => start

/-- `interResults.get` -/
def getResult (env : DnCEnv) (name : String) : Option DefinedFunc :=
  (env.interResults.find? fun q => q.1 = name).map Prod.snd

/-- `scanInterResults`: the first name of a subproblem, from the root down. -/
def scanInterResults (env : DnCEnv) (ast : ASTGeneral) : Option String :=
  ast.names.find? fun name => name ∈ env.interResultNames

/-- `dncPblms.get` -/
def getProblem (env : DnCEnv) (expr : LIA.Expr) : Option SygusProblem :=
  (env.dncPblms.find? fun q => q.1 = expr).map Prod.snd

/-- `addSubSolutionToAll` and `interResults.put`. -/
def addResult (env : DnCEnv) (df : DefinedFunc) : DnCEnv :=
  { env with
    problem := env.problem.addSubSolution df
    dncPblms := env.dncPblms.map fun q => (q.1, q.2.addSubSolution df)
    interResults := env.interResults ++ [(df.name, df)] }

end DnCEnv

/-! ### The workers -/

/-- The points of `DnCegis.run`, with the local variables that live there. -/
inductive Pc where
  /-- Before `run`, with the problem the constructor copied. -/
  | created (problem : SygusProblem)
  /-- At the head of `while (running)`. -/
  | loop (problem : SygusProblem)
  /-- Before the first `cegisGeneral()` of an iteration. -/
  | solve (len : ℕ) (problem : SygusProblem)
  /-- Before the loop over the subproblems. -/
  | enter (len : ℕ)
  /-- At the head of the loop over the subproblems. -/
  | next (len : ℕ) (exprs : List LIA.Expr) (newInter : Bool)
  /-- Before the solver for a subproblem. -/
  | solveSub (len : ℕ) (problem : SygusProblem) (exprs : List LIA.Expr) (newInter : Bool)
  /-- Before the lock under which the result of a subproblem is recorded. -/
  | record (len : ℕ) (results : Option DefinedFunc) (exprs : List LIA.Expr) (newInter : Bool)
  /-- After the loop over the subproblems. -/
  | reload (len : ℕ) (newInter : Bool)
  /-- Before the second solver call for the problem. -/
  | solveAgain (len : ℕ) (problem : SygusProblem)
  /-- Before the loop that logs the recorded results. -/
  | log (results : DefinedFunc)
  /-- At the head of the loop over `scanInterResults`. -/
  | fill (results : DefinedFunc) (defAST : ASTGeneral)
  /-- After `setAST`. -/
  | filled (results : DefinedFunc)
  /-- The thread ended without filling in: an iteration limit or an exception. -/
  | stopped

/-- What a worker does next, where the program leaves it open. -/
inductive Action where
  | go
  /-- The solver finds a vector the verifier accepts. -/
  | found (terms : List ℤ)
  /-- The solver returns without results. -/
  | notFound
  /-- The keys of `dncPblms`, in the order of the hash map. -/
  | visit (exprs : List LIA.Expr)
  | stop
  deriving DecidableEq

/-- The vectors `cegisGeneral` may return with, for a problem and a length. -/
abbrev Found := SygusProblem → ℕ → List ℤ → Bool

/-- `results[0]` after `cegisGeneral` found a vector. -/
def candidate (found : Found) (p : SygusProblem) (len : ℕ) (terms : List ℤ) :
    Option DefinedFunc :=
  if terms.length = len ∧ found p len terms then
    (expandGeneral p terms).map fun ast => ⟨p.name, p.requestArgs, ast⟩
  else none

/-- One iteration of the loop over `scanInterResults`.  Where `interResults.get` or `rewrite`
gives `null` the worker runs into an exception. -/
def fillStep (env : DnCEnv) (results : DefinedFunc) (defAST : ASTGeneral) : Pc :=
  match env.scanInterResults defAST with
  | none => .filled { results with ASTDef := defAST }
  | some funcName =>
      match (env.getResult funcName).bind fun interFunc => interFunc.rewrite defAST with
      | some ast => .fill results ast
      | none => .stopped

/-- The environment, the next vector length, and a worker, after an action of the worker. -/
def workerStep (found : Found) (env : DnCEnv) (pdc1D : ℕ) :
    Pc → Action → Option (DnCEnv × ℕ × Pc)
  | .created p, .go =>
      some (env, pdc1D, match env.feedType with
        | .heightOnly => .loop p
        | .allInOne => .enter 0)
  | .loop p, .go => some (env, pdc1D + 1, .solve pdc1D p)
  | .solve len p, .found terms =>
      (candidate found p len terms).map fun df => (env, pdc1D, .log df)
  | .solve len _, .notFound => some (env, pdc1D, .enter len)
  | .solve _ _, .stop => some (env, pdc1D, .stopped)
  | .enter len, .visit exprs =>
      if exprs.isPerm (env.dncPblms.map Prod.fst) then
        some (env, pdc1D, .next len exprs false)
      else none
  | .next len [] newInter, .go => some (env, pdc1D, .reload len newInter)
  | .next len (expr :: exprs) newInter, .go =>
      (env.getProblem expr).map fun p =>
        if env.interResults.any fun q => q.1 = p.name then
          (env, pdc1D, .next len exprs newInter)
        else (env, pdc1D, .solveSub len p exprs newInter)
  | .solveSub len p exprs newInter, .found terms =>
      match env.feedType with
      | .heightOnly =>
          (candidate found p len terms).map fun df =>
            (env, pdc1D, .record len (some df) exprs newInter)
      | .allInOne => none
  | .solveSub len _ exprs newInter, .notFound =>
      some (env, pdc1D, .record len none exprs newInter)
  | .solveSub _ _ _ _, .stop => some (env, pdc1D, .stopped)
  | .record len none exprs newInter, .go => some (env, pdc1D, .next len exprs newInter)
  | .record len (some df) exprs newInter, .go =>
      if env.interResults.any fun q => q.1 = df.name then
        some (env, pdc1D, .next len exprs newInter)
      else some (env.addResult df, pdc1D, .next len exprs true)
  | .reload len newInter, .go =>
      some (env, pdc1D, match env.feedType, newInter with
        | .heightOnly, false => .loop env.problem
        | _, _ => .solveAgain len env.problem)
  | .solveAgain len p, .found terms =>
      match env.feedType with
      | .heightOnly => (candidate found p len terms).map fun df => (env, pdc1D, .log df)
      | .allInOne => none
  | .solveAgain _ p, .notFound =>
      some (env, pdc1D, match env.feedType with
        | .heightOnly => .loop p
        | .allInOne => .stopped)
  | .solveAgain _ _, .stop => some (env, pdc1D, .stopped)
  | .log df, .go => some (env, pdc1D, .fill df df.ASTDef)
  | .log _, .stop => some (env, pdc1D, .stopped)
  | .fill df ast, .go => some (env, pdc1D, fillStep env df ast)
  | _, _ => none

/-- The environment with its producer of vector lengths, and the workers. -/
structure State (n : ℕ) where
  env : DnCEnv
  pdc1D : ℕ
  workers : Fin n → Pc

variable {n : ℕ}

/-- One event: an action of worker `e.1`, where the worker can do it. -/
def step (found : Found) (s : State n) (e : Fin n × Action) : Option (State n) :=
  (workerStep found s.env s.pdc1D (s.workers e.1) e.2).map fun r =>
    ⟨r.1, r.2.1, Function.update s.workers e.1 r.2.2⟩

/-- The state after a list of events. -/
def run (found : Found) (s : State n) (l : List (Fin n × Action)) : Option (State n) :=
  l.foldlM (step found) s

/-- The state in which the dispatcher has made the workers. -/
def State.init (n : ℕ) (fresh : ℕ → String) (feedType : FeedType) (problem : SygusProblem)
    (dncBaseExpr : LIA.Expr) (dncBaseArgs : List LIA.Expr) : State n where
  env := DnCEnv.init fresh feedType problem dncBaseExpr dncBaseArgs
  pdc1D := 1
  workers _ := .created problem

/-! ### Trees of a problem -/

/-- The trees that call recorded results only, each with `k` arguments. -/
structure Calls (N : Set String) (k : ℕ) (R : List String) (t : ASTGeneral) : Prop where
  wellCalled : t.WellCalled N k
  mem : ∀ f ∈ t.names, f ∈ N → f ∈ R

/-- The grammar of the problem calls recorded results only, with `k` arguments, and reads them as
functions. -/
structure SygusProblem.Ok (N : Set String) (k : ℕ) (R : List String) (p : SygusProblem) :
    Prop where
  rule : ∀ r ∈ p.ruleTbl, r.termSyb ∈ N → r.termSyb ∈ R ∧ r.args.length = k
  sybTypeTbl : ∀ f ∈ N, p.cfg.sybTypeTbl f = none
  glbSybTypeTbl : ∀ f ∈ N, p.glbSybTypeTbl f = none ∨ p.glbSybTypeTbl f = some .func
  requestArgs : p.requestArgs.length = k

/-- No name of the set is the text of a constant. -/
structure NoLiteral (N : Set String) : Prop where
  int : ∀ c : ℤ, toString c ∉ N
  tru : "true" ∉ N
  fls : "false" ∉ N

section Trees

variable {N : Set String} {k : ℕ} {R R' : List String} {p : SygusProblem} {df : DefinedFunc}

theorem Calls.node {m : String} {l : List ASTGeneral} (hm : m ∈ N → m ∈ R ∧ l.length = k)
    (hl : ∀ c ∈ l, Calls N k R c) :
  Calls N k R (.mk m l)
  := by
  constructor
  · exact .node (fun h => (hm h).2) fun c hc => (hl c hc).wellCalled
  · intro f hf hN
    rcases ASTGeneral.mem_names_mk.mp hf with rfl | ⟨c, hc, hf⟩
    · apply (hm hN).1
    · apply (hl c hc).mem f hf hN

theorem Calls.leaf {m : String} (hm : m ∉ N) :
  Calls N k R (.leaf m)
  := by
  apply Calls.node
  · intro h
    apply absurd h hm
  · intro c hc
    cases hc

theorem Calls.mono (hR : ∀ f ∈ R, f ∈ R') {t : ASTGeneral} (h : Calls N k R t) :
  Calls N k R' t
  := ⟨h.wellCalled, fun f hf hN => hR f (h.mem f hf hN)⟩

theorem SygusProblem.Ok.mono (hR : ∀ f ∈ R, f ∈ R') (h : p.Ok N k R) :
  p.Ok N k R'
  := ⟨fun r hr hN => ⟨hR _ (h.rule r hr hN).1, (h.rule r hr hN).2⟩, h.sybTypeTbl, h.glbSybTypeTbl,
    h.requestArgs⟩

theorem SygusProblem.mem_ruleTbl_addSubSolution {r : Rule}
    (h : r ∈ (p.addSubSolution df).ruleTbl) :
  r ∈ p.ruleTbl ∨ r = ⟨df.name, List.replicate df.strArgs.length "Start"⟩
  := by
  obtain ⟨g, hg, hr⟩ := List.mem_flatMap.mp h
  obtain ⟨g', hg', rfl⟩ := List.mem_map.mp hg
  have hmem : ∀ r ∈ g'.2, r ∈ p.ruleTbl := fun r hr => List.mem_flatMap.mpr ⟨g', hg', hr⟩
  split at hr
  · rcases List.mem_append.mp hr with hr | hr
    · exact .inl (hmem r hr)
    · exact .inr (List.mem_singleton.mp hr)
  · exact .inl (hmem r hr)

/-- A recorded result may be added to a problem. -/
theorem SygusProblem.Ok.addSubSolution (h : p.Ok N k R) (hR : ∀ f ∈ R, f ∈ R')
    (hname : df.name ∈ R') (hargs : df.strArgs.length = k) :
  (p.addSubSolution df).Ok N k R'
  := by
  constructor
  · intro r hr hN
    rcases mem_ruleTbl_addSubSolution hr with hr | rfl
    · apply (h.mono hR).rule r hr hN
    · exact ⟨hname, by rw [List.length_replicate, hargs]⟩
  · apply h.sybTypeTbl
  · intro f hf
    by_cases hfd : f = df.name
    · right
      rw [hfd]
      apply Function.update_self _ _ _
    · have hglb : (p.addSubSolution df).glbSybTypeTbl f = p.glbSybTypeTbl f :=
        Function.update_of_ne hfd _ _
      rw [hglb]
      apply h.glbSybTypeTbl f hf
  · apply h.requestArgs

theorem readArgs_spec {α : Type} {read : List ℤ → Option (α × List ℤ)} {P : α → Prop}
    (hread : ∀ terms a rest, read terms = some (a, rest) → P a) {m : ℕ} {terms : List ℤ}
    {l : List α} {rest : List ℤ} (h : readArgs read m terms = some (l, rest)) :
  l.length = m ∧ ∀ a ∈ l, P a
  := by
  induction m generalizing terms l with
  | zero =>
      cases h
      exact ⟨rfl, by simp⟩
  | succ m ih =>
      rw [readArgs] at h
      obtain ⟨⟨a, terms'⟩, ha, h⟩ := Option.bind_eq_some_iff.mp h
      obtain ⟨⟨l', rest'⟩, hl, h⟩ := Option.bind_eq_some_iff.mp h
      cases h
      obtain ⟨hlen, hall⟩ := ih hl
      refine ⟨by rw [List.length_cons, hlen], ?_⟩
      intro b hb
      rcases List.mem_cons.mp hb with rfl | hb
      · apply hread _ _ _ ha
      · apply hall b hb

theorem SygusProblem.ruleAt_mem {i : ℤ} {r : Rule} (h : p.ruleAt i = some r) :
  r ∈ p.ruleTbl
  := by
  cases i with
  | ofNat i => exact List.mem_of_getElem? h
  | negSucc i => cases h

/-- A symbol that is read as a leaf is no subproblem. -/
theorem SygusProblem.Ok.notMem (h : p.Ok N k R) {f : String} {t : SybType}
    (hf : p.resolveSyb f = some t) (ht : t ≠ .func) :
  f ∉ N
  := by
  intro hN
  rw [SygusProblem.resolveSyb, h.sybTypeTbl f hN] at hf
  rcases h.glbSybTypeTbl f hN with hg | hg
  · rw [hg] at hf
    cases hf
  · rw [hg] at hf
    cases hf
    apply ht rfl

/-- A tree read off a vector has the calls of the grammar. -/
theorem calls_buildAST (hlit : NoLiteral N) (hp : p.Ok N k R) {d : ℕ} {terms rest : List ℤ}
    {t : ASTGeneral} (h : buildAST p d terms = some (t, rest)) :
  Calls N k R t
  := by
  induction d generalizing terms rest t with
  | zero =>
      rw [buildAST] at h
      · cases h
      · intro d i l hd
        cases hd
  | succ d ih =>
      cases terms with
      | nil => cases h
      | cons i terms =>
          rw [buildAST] at h
          obtain ⟨r, hr, h⟩ := Option.bind_eq_some_iff.mp h
          have hnode : ∀ l terms',
              readArgs (buildAST p d) r.args.length terms = some (l, terms') →
                Calls N k R (.mk r.termSyb l) := by
            intro l terms' hl
            obtain ⟨hlen, hall⟩ := readArgs_spec (P := Calls N k R)
              (fun _ _ _ hread => ih hread) hl
            apply Calls.node _ hall
            intro hN
            obtain ⟨hR, hk⟩ := hp.rule r (SygusProblem.ruleAt_mem hr) hN
            exact ⟨hR, by rw [hlen, hk]⟩
          split at h
          · rename_i hs _
            cases h
            apply Calls.leaf (hp.notMem hs (by simp))
          · rename_i hs _
            cases h
            apply Calls.leaf (hp.notMem hs (by simp))
          · rename_i hs _
            cases h
            apply Calls.leaf (hp.notMem hs (by simp))
          · rename_i hs _
            cases h
            apply Calls.leaf (hp.notMem hs (by simp))
          · cases h
            apply Calls.leaf (hlit.int _)
          · cases h
            apply Calls.leaf
            split
            · apply hlit.fls
            · apply hlit.tru
          · cases h
          · cases h
          · obtain ⟨⟨l, terms'⟩, hl, h⟩ := Option.bind_eq_some_iff.mp h
            cases h
            apply hnode l _ hl

/-- The result of a solver call has the calls of the grammar, and as many arguments. -/
theorem calls_candidate (hlit : NoLiteral N) (hp : p.Ok N k R) {found : Found} {len : ℕ}
    {terms : List ℤ} (h : candidate found p len terms = some df) :
  df.name = p.name ∧ df.strArgs.length = k ∧ Calls N k R df.ASTDef
  := by
  rw [candidate] at h
  split at h
  · obtain ⟨ast, hast, rfl⟩ := Option.map_eq_some_iff.mp h
    obtain ⟨⟨t, rest⟩, ht, rfl⟩ := Option.map_eq_some_iff.mp hast
    exact ⟨rfl, hp.requestArgs, calls_buildAST hlit hp ht⟩
  · cases h

end Trees

/-! ### The recorded results -/

/-- Results recorded one after the other, each calling earlier ones only. -/
inductive Recorded (N : Set String) (k : ℕ) : List (String × DefinedFunc) → Prop
  | nil : Recorded N k []
  | snoc {L : List (String × DefinedFunc)} {df : DefinedFunc} (h : Recorded N k L)
      (hname : df.name ∈ N) (hnew : df.name ∉ L.map Prod.fst) (hargs : df.strArgs.length = k)
      (hcalls : Calls N k (L.map Prod.fst) df.ASTDef) : Recorded N k (L ++ [(df.name, df)])

namespace DnCEnv

/-- The names of the recorded results, in the order they were put. -/
def keys (env : DnCEnv) : List String := env.interResults.map Prod.fst

/-- The tree recorded for `f` calls the subproblem `g`. -/
def Depends (env : DnCEnv) (f g : String) : Prop :=
  ∃ df, env.getResult f = some df ∧ g ∈ env.interResultNames ∧ g ∈ df.ASTDef.names

/-- No recorded result depends on itself. -/
def Acyclic (env : DnCEnv) : Prop := ∀ f, ¬ Relation.TransGen env.Depends f f

/-- The calls in a tree, a result weighing twice what the one recorded before it does. -/
def weight (env : DnCEnv) (ast : ASTGeneral) : ℕ :=
  ∑ f ∈ ast.names.toFinset with f ∈ env.keys, 2 ^ env.keys.idxOf f

/-- The environment is `env` with further results. -/
structure Extends (env env' : DnCEnv) : Prop where
  names : env'.interResultNames = env.interResultNames
  results : env.interResults <+: env'.interResults

/-- What holds of the environment between two events. -/
structure Ok (N : Set String) (k : ℕ) (env : DnCEnv) : Prop where
  names : ∀ f, f ∈ env.interResultNames ↔ f ∈ N
  problem : env.problem.Ok N k env.keys
  pblms : ∀ q ∈ env.dncPblms, q.2.Ok N k env.keys ∧ q.2.name ∈ N
  recorded : Recorded N k env.interResults

end DnCEnv

section Results

variable {N : Set String} {k : ℕ} {env env' : DnCEnv} {L : List (String × DefinedFunc)}

theorem Recorded.mem (h : Recorded N k L) {f : String} (hf : f ∈ L.map Prod.fst) :
  f ∈ N
  := by
  induction h with
  | nil => cases hf
  | snoc _ hname _ _ _ ih =>
      rw [List.map_append, List.mem_append] at hf
      rcases hf with hf | hf
      · apply ih hf
      · rw [List.mem_singleton.mp hf]
        apply hname

/-- What is recorded under a name, and that it calls results of smaller index. -/
theorem Recorded.exists_find (h : Recorded N k L) {f : String} (hf : f ∈ L.map Prod.fst) :
  ∃ df, (L.find? fun q => q.1 = f).map Prod.snd = some df ∧ df.name = f ∧
    df.strArgs.length = k ∧ df.ASTDef.WellCalled N k ∧
    ∀ g ∈ df.ASTDef.names, g ∈ N →
      g ∈ L.map Prod.fst ∧ (L.map Prod.fst).idxOf g < (L.map Prod.fst).idxOf f
  := by
  induction h with
  | nil => cases hf
  | @snoc L df h hname hnew hargs hcalls ih =>
      rw [List.map_append, List.find?_append]
      by_cases hfL : f ∈ L.map Prod.fst
      · obtain ⟨df', hdf', hn, ha, hw, hlt⟩ := ih hfL
        obtain ⟨q, hq, rfl⟩ := Option.map_eq_some_iff.mp hdf'
        refine ⟨q.2, by rw [hq]; rfl, hn, ha, hw, ?_⟩
        intro g hg hgN
        obtain ⟨hgL, hgf⟩ := hlt g hg hgN
        rw [List.idxOf_append_of_mem hgL, List.idxOf_append_of_mem hfL]
        exact ⟨List.mem_append_left _ hgL, hgf⟩
      · have hfd : f = df.name := by
          rw [List.map_append, List.mem_append] at hf
          apply List.mem_singleton.mp (hf.resolve_left hfL)
        have hnone : L.find? (fun q => q.1 = f) = none := by
          rw [List.find?_eq_none]
          intro q hq hqf
          apply hfL (List.mem_map.mpr ⟨q, hq, of_decide_eq_true hqf⟩)
        refine ⟨df, ?_, hfd.symm, hargs, hcalls.wellCalled, ?_⟩
        · rw [hnone, hfd]
          simp
        · intro g hg hgN
          have hgL := hcalls.mem g hg hgN
          refine ⟨List.mem_append_left _ hgL, ?_⟩
          rw [List.idxOf_append_of_mem hgL, List.idxOf_append_of_notMem hfL]
          have hlt := List.idxOf_lt_length_of_mem hgL
          omega

theorem DnCEnv.Ok.exists_getResult (h : env.Ok N k) {f : String} (hf : f ∈ env.keys) :
  ∃ df, env.getResult f = some df ∧ df.name = f ∧ df.strArgs.length = k ∧
    df.ASTDef.WellCalled N k ∧
    ∀ g ∈ df.ASTDef.names, g ∈ N → g ∈ env.keys ∧ env.keys.idxOf g < env.keys.idxOf f
  := h.recorded.exists_find hf

theorem DnCEnv.getResult_mem {f : String} {df : DefinedFunc} (h : env.getResult f = some df) :
  f ∈ env.keys
  := by
  obtain ⟨q, hq, rfl⟩ := Option.map_eq_some_iff.mp h
  have hqf : q.1 = f := by simpa using List.find?_some hq
  apply List.mem_map.mpr ⟨q, List.mem_of_find?_eq_some hq, hqf⟩

/-- A dependency leads to a result recorded earlier. -/
theorem DnCEnv.Ok.idxOf_lt (h : env.Ok N k) {f g : String} (hfg : env.Depends f g) :
  env.keys.idxOf g < env.keys.idxOf f
  := by
  obtain ⟨df, hdf, hg, hgt⟩ := hfg
  obtain ⟨df', hdf', -, -, -, hlt⟩ := h.exists_getResult (DnCEnv.getResult_mem hdf)
  rw [hdf] at hdf'
  cases hdf'
  apply (hlt g hgt ((h.names g).mp hg)).2

theorem DnCEnv.Ok.acyclic (h : env.Ok N k) :
  env.Acyclic
  := by
  have hlt : ∀ f g, Relation.TransGen env.Depends f g →
      env.keys.idxOf g < env.keys.idxOf f := by
    intro f g hfg
    induction hfg with
    | single hfg => exact h.idxOf_lt hfg
    | tail _ hgh ih => exact (h.idxOf_lt hgh).trans ih
  intro f hf
  apply (hlt f f hf).false

theorem DnCEnv.Extends.keys (h : env.Extends env') :
  env.keys <+: env'.keys
  := h.results.map _

theorem DnCEnv.Extends.mem (h : env.Extends env') :
  ∀ f ∈ env.keys, f ∈ env'.keys
  := fun _ hf => h.keys.subset hf

theorem DnCEnv.Extends.refl (env : DnCEnv) :
  env.Extends env
  := ⟨rfl, List.prefix_rfl⟩

/-- Further results do not change what a tree weighs that does not call them. -/
theorem DnCEnv.Extends.weight (h : env.Extends env') (henv' : env'.Ok N k) {ast : ASTGeneral}
    (hast : Calls N k env.keys ast) :
  env'.weight ast = env.weight ast
  := by
  obtain ⟨ext, hext⟩ := h.keys
  rw [DnCEnv.weight, DnCEnv.weight]
  apply Finset.sum_congr
  · ext f
    rw [Finset.mem_filter, Finset.mem_filter]
    constructor
    · rintro ⟨hf, hk⟩
      exact ⟨hf, hast.mem f (List.mem_toFinset.mp hf) (henv'.recorded.mem hk)⟩
    · rintro ⟨hf, hk⟩
      exact ⟨hf, h.mem f hk⟩
  · intro f hf
    rw [← hext, List.idxOf_append_of_mem (Finset.mem_filter.mp hf).2]

/-- A sum of powers of two falls when one of them is replaced by smaller ones. -/
theorem sum_two_pow_lt {ι : Type} [DecidableEq ι] {r : ι → ℕ} {S S' D : Finset ι} {a : ι}
    (ha : a ∈ S) (hD : ∀ d ∈ D, r d < r a) (hinj : Set.InjOn r D) (h : S' ⊆ S.erase a ∪ D) :
  ∑ i ∈ S', 2 ^ r i < ∑ i ∈ S, 2 ^ r i
  := by
  have hsmall : ∑ i ∈ D, 2 ^ r i < 2 ^ r a := by
    rw [← Finset.sum_image (g := r) (f := fun n => 2 ^ n) hinj]
    apply Nat.geomSum_lt le_rfl
    intro n hn
    obtain ⟨d, hd, rfl⟩ := Finset.mem_image.mp hn
    apply hD d hd
  calc ∑ i ∈ S', 2 ^ r i
      ≤ ∑ i ∈ S.erase a ∪ D, 2 ^ r i := Finset.sum_le_sum_of_subset h
    _ ≤ ∑ i ∈ S.erase a, 2 ^ r i + ∑ i ∈ D, 2 ^ r i := by
        rw [← Finset.sum_union_inter]
        apply Nat.le_add_right _ _
    _ < ∑ i ∈ S.erase a, 2 ^ r i + 2 ^ r a := Nat.add_lt_add_left hsmall _
    _ = ∑ i ∈ S, 2 ^ r i := Finset.sum_erase_add _ _ ha

/-- Filling in a result leaves a lighter tree. -/
theorem DnCEnv.Ok.weight_lt (henv : env.Ok N k) {df : DefinedFunc} {ast ast' : ASTGeneral}
    (hdf : env.getResult df.name = some df) (hin : df.name ∈ ast.names)
    (h : df.Leaves ast ast') :
  env.weight ast' < env.weight ast
  := by
  have hkey := DnCEnv.getResult_mem hdf
  obtain ⟨df', hdf', -, -, -, hlt⟩ := henv.exists_getResult hkey
  rw [hdf] at hdf'
  cases hdf'
  apply sum_two_pow_lt (a := df.name) (D := env.keys.toFinset.filter
    fun g => env.keys.idxOf g < env.keys.idxOf df.name)
  · apply Finset.mem_filter.mpr ⟨List.mem_toFinset.mpr hin, hkey⟩
  · intro g hg
    apply (Finset.mem_filter.mp hg).2
  · intro g hg g' _ hgg
    have hg := List.mem_toFinset.mp (Finset.mem_filter.mp hg).1
    apply (List.idxOf_inj hg).mp hgg
  · intro g hg
    obtain ⟨hg, hk⟩ := Finset.mem_filter.mp hg
    rw [Finset.mem_union]
    rcases h g (List.mem_toFinset.mp hg) with ⟨hgt, hne⟩ | ⟨hgt, -⟩
    · left
      exact Finset.mem_erase.mpr
        ⟨hne, Finset.mem_filter.mpr ⟨List.mem_toFinset.mpr hgt, hk⟩⟩
    · right
      exact Finset.mem_filter.mpr
        ⟨List.mem_toFinset.mpr hk, (hlt g hgt (henv.recorded.mem hk)).2⟩

theorem DnCEnv.Ok.scan_eq_none (henv : env.Ok N k) {ast : ASTGeneral} :
  env.scanInterResults ast = none ↔ ∀ f ∈ ast.names, f ∉ N
  := by
  rw [DnCEnv.scanInterResults, List.find?_eq_none]
  constructor
  · intro h f hf hN
    apply h f hf (decide_eq_true ((henv.names f).mpr hN))
  · intro h f hf hd
    apply h f hf ((henv.names f).mp (of_decide_eq_true hd))

/-- One iteration of the filling loop ends it, or leaves a tree that calls recorded results, a
lighter one if the calls have arguments and the same one if they have none. -/
theorem DnCEnv.Ok.fillStep_spec (henv : env.Ok N k) (results : DefinedFunc) {ast : ASTGeneral}
    (hast : Calls N k env.keys ast) :
  (env.scanInterResults ast = none ∧
      fillStep env results ast = .filled { results with ASTDef := ast }) ∨
    env.scanInterResults ast ≠ none ∧
      ∃ ast', fillStep env results ast = .fill results ast' ∧ Calls N k env.keys ast' ∧
        (0 < k → env.weight ast' < env.weight ast) ∧ (k = 0 → ast' = ast)
  := by
  cases hs : env.scanInterResults ast with
  | none =>
      left
      refine ⟨rfl, ?_⟩
      rw [fillStep, hs]
  | some f =>
      right
      refine ⟨by simp, ?_⟩
      have hf : f ∈ ast.names := List.mem_of_find?_eq_some hs
      have hd : decide (f ∈ env.interResultNames) = true :=
        List.find?_some (p := fun name => decide (name ∈ env.interResultNames)) hs
      have hfN : f ∈ N := (henv.names f).mp (of_decide_eq_true hd)
      obtain ⟨df, hdf, rfl, hargs, hw, hlt⟩ := henv.exists_getResult (hast.mem f hf hfN)
      have hstep : ∀ ast', df.rewrite ast = some ast' →
          fillStep env results ast = .fill results ast' := by
        intro ast' h
        rw [fillStep, hs]
        dsimp only
        rw [hdf, Option.bind_some, h]
      rcases Nat.eq_zero_or_pos k with rfl | hk
      · refine ⟨ast, hstep _ (df.rewrite_of_leaf_calls hfN hast.wellCalled), hast, ?_, ?_⟩
        · intro h
          apply absurd h (lt_irrefl 0)
        · intro _
          rfl
      · obtain ⟨ast', hrw, hw', hleaves⟩ := df.rewrite_spec hk hfN hargs hw hast.wellCalled
        refine ⟨ast', hstep _ hrw, ⟨hw', ?_⟩, ?_, ?_⟩
        · intro g hg hgN
          rcases hleaves g hg with ⟨hgt, -⟩ | ⟨hgt, -⟩
          · apply hast.mem g hgt hgN
          · apply (hlt g hgt hgN).1
        · intro _
          apply henv.weight_lt hdf hf hleaves
        · intro h
          omega

end Results

/-! ### Steps -/

/-- What holds of a worker between two events. -/
def Pc.Ok (N : Set String) (k : ℕ) (R : List String) : Pc → Prop
  | .created p | .loop p | .solve _ p | .solveAgain _ p => p.Ok N k R
  | .solveSub _ p _ _ => p.Ok N k R ∧ p.name ∈ N
  | .record _ (some df) _ _ => df.name ∈ N ∧ df.strArgs.length = k ∧ Calls N k R df.ASTDef
  | .log df => Calls N k R df.ASTDef
  | .fill _ ast => Calls N k R ast
  | .filled df => ∀ f ∈ df.ASTDef.names, f ∉ N
  | _ => True

section Steps

variable {N : Set String} {k : ℕ} {R R' : List String} {env env' : DnCEnv} {found : Found}

theorem Pc.Ok.mono (hR : ∀ f ∈ R, f ∈ R') {pc : Pc} (h : pc.Ok N k R) :
  pc.Ok N k R'
  := by
  cases pc with
  | created p => exact SygusProblem.Ok.mono hR h
  | loop p => exact SygusProblem.Ok.mono hR h
  | solve len p => exact SygusProblem.Ok.mono hR h
  | solveAgain len p => exact SygusProblem.Ok.mono hR h
  | solveSub len p exprs newInter => exact ⟨h.1.mono hR, h.2⟩
  | record len results exprs newInter =>
      cases results with
      | none => trivial
      | some df => exact ⟨h.1, h.2.1, h.2.2.mono hR⟩
  | log df => exact Calls.mono hR h
  | fill df ast => exact Calls.mono hR h
  | filled df => exact h
  | enter len => trivial
  | next len exprs newInter => trivial
  | reload len newInter => trivial
  | stopped => trivial

/-- A result of a subproblem may be recorded when there is none. -/
theorem DnCEnv.Ok.addResult (h : env.Ok N k) {df : DefinedFunc} (hname : df.name ∈ N)
    (hnew : df.name ∉ env.keys) (hargs : df.strArgs.length = k)
    (hcalls : Calls N k env.keys df.ASTDef) :
  (env.addResult df).Ok N k
  := by
  have hkeys : (env.addResult df).keys = env.keys ++ [df.name] := by
    rw [DnCEnv.keys, DnCEnv.addResult, List.map_append]
    rfl
  have hR : ∀ f ∈ env.keys, f ∈ (env.addResult df).keys := by
    intro f hf
    rw [hkeys]
    apply List.mem_append_left _ hf
  have hin : df.name ∈ (env.addResult df).keys := by
    rw [hkeys]
    apply List.mem_append_right _ List.mem_cons_self
  constructor
  · apply h.names
  · apply h.problem.addSubSolution hR hin hargs
  · intro q hq
    obtain ⟨q', hq', rfl⟩ := List.mem_map.mp hq
    exact ⟨(h.pblms q' hq').1.addSubSolution hR hin hargs, (h.pblms q' hq').2⟩
  · exact .snoc h.recorded hname hnew hargs hcalls

theorem DnCEnv.extends_addResult (env : DnCEnv) (df : DefinedFunc) :
  env.Extends (env.addResult df)
  := ⟨rfl, List.prefix_append _ _⟩

theorem DnCEnv.Ok.getProblem (h : env.Ok N k) {expr : LIA.Expr} {p : SygusProblem}
    (hp : env.getProblem expr = some p) :
  p.Ok N k env.keys ∧ p.name ∈ N
  := by
  obtain ⟨q, hq, rfl⟩ := Option.map_eq_some_iff.mp hp
  apply h.pblms q (List.mem_of_find?_eq_some hq)

/-- An action of a worker keeps what holds between two events, and at most adds results. -/
theorem DnCEnv.Ok.workerStep (hlit : NoLiteral N) (henv : env.Ok N k) {m m' : ℕ} {pc pc' : Pc}
    (hpc : pc.Ok N k env.keys) {a : Action}
    (h : workerStep found env m pc a = some (env', m', pc')) :
  env'.Ok N k ∧ env.Extends env' ∧ pc'.Ok N k env'.keys
  := by
  -- all actions but one leave the environment as it is
  have hsame : ∀ {pc₁ : Pc} {m₁ : ℕ}, some (env, m₁, pc₁) = some (env', m', pc') →
      pc₁.Ok N k env.keys → env'.Ok N k ∧ env.Extends env' ∧ pc'.Ok N k env'.keys := by
    intro pc₁ m₁ heq hpc₁
    cases heq
    exact ⟨henv, .refl env, hpc₁⟩
  have hfound : ∀ {p : SygusProblem} {len : ℕ} {terms : List ℤ} {g : DefinedFunc → Pc},
      (candidate found p len terms).map (fun df => (env, m, g df)) = some (env', m', pc') →
      p.Ok N k env.keys →
      (∀ df, df.name = p.name → df.strArgs.length = k → Calls N k env.keys df.ASTDef →
        (g df).Ok N k env.keys) →
      env'.Ok N k ∧ env.Extends env' ∧ pc'.Ok N k env'.keys := by
    intro p len terms g heq hp hg
    obtain ⟨df, hdf, heq⟩ := Option.map_eq_some_iff.mp heq
    obtain ⟨hn, ha, hc⟩ := calls_candidate hlit hp hdf
    apply hsame (congrArg some heq) (hg df hn ha hc)
  unfold DnC.workerStep at h
  split at h
  · apply hsame h
    cases env.feedType with
    | heightOnly => exact hpc
    | allInOne => trivial
  · apply hsame h hpc
  · exact hfound h hpc fun df _ _ hc => hc
  · apply hsame h trivial
  · apply hsame h trivial
  · split at h
    · apply hsame h trivial
    · cases h
  · apply hsame h trivial
  · obtain ⟨p, hp, h⟩ := Option.map_eq_some_iff.mp h
    split at h
    · apply hsame (congrArg some h) trivial
    · apply hsame (congrArg some h) (henv.getProblem hp)
  · split at h
    · apply hfound h hpc.1
      intro df hn ha hc
      refine ⟨?_, ha, hc⟩
      rw [hn]
      apply hpc.2
    · cases h
  · apply hsame h trivial
  · apply hsame h trivial
  · apply hsame h trivial
  · split at h
    · apply hsame h trivial
    · rename_i df _ _ hany
      cases h
      refine ⟨henv.addResult hpc.1 ?_ hpc.2.1 hpc.2.2, env.extends_addResult df, trivial⟩
      intro hin
      obtain ⟨q, hq, hqn⟩ := List.mem_map.mp hin
      apply hany (List.any_eq_true.mpr ⟨q, hq, decide_eq_true hqn⟩)
  · apply hsame h
    split
    · apply henv.problem
    · apply henv.problem
  · split at h
    · exact hfound h hpc fun df _ _ hc => hc
    · cases h
  · apply hsame h
    cases env.feedType with
    | heightOnly => exact hpc
    | allInOne => trivial
  · apply hsame h trivial
  · apply hsame h hpc
  · apply hsame h trivial
  · apply hsame h
    rename_i results ast
    rcases henv.fillStep_spec results hpc with ⟨hs, hf⟩ | ⟨_, ast', hf, hc, _, _⟩
    · rw [hf]
      apply henv.scan_eq_none.mp hs
    · rw [hf]
      apply hc
  · cases h

end Steps

/-! ### Runs -/

/-- The names of fresh declarations begin with the given text and are names of nothing else in
the problem. -/
structure Fresh (fresh : ℕ → String) (p : SygusProblem) : Prop where
  dnc : ∀ i, ∃ s, fresh i = "DnC" ++ s
  rule : ∀ i, ∀ r ∈ p.ruleTbl, r.termSyb ≠ fresh i
  sybTypeTbl : ∀ i, p.cfg.sybTypeTbl (fresh i) = none
  glbSybTypeTbl : ∀ i, p.glbSybTypeTbl (fresh i) = none

/-- What holds of the environment and of all workers between two events. -/
structure State.Ok (N : Set String) (k : ℕ) (s : State n) : Prop where
  env : s.env.Ok N k
  workers : ∀ w, (s.workers w).Ok N k s.env.keys

/-- From here on the filling loop of worker `w` runs a bounded number of iterations, whatever the
other workers do in between, is able to go on until it ends, and leaves a tree without names of
subproblems. -/
structure FillEnds (found : Found) (s : State n) (w : Fin n) : Prop where
  bounded : ∃ b, ∀ l s', run found s l = some s' → (l.filter fun e => e.1 = w).length ≤ b
  clean : ∀ l s', run found s l = some s' →
    (∃ results ast, s'.workers w = .fill results ast ∧ (step found s' (w, .go)).isSome) ∨
      ∃ results, s'.workers w = .filled results ∧ s'.env.scanInterResults results.ASTDef = none

section Runs

variable {N : Set String} {k : ℕ} {found : Found} {fresh : ℕ → String} {p : SygusProblem}

/-- The text of a number has no letter. -/
theorem notMem_toString (c : ℤ) :
  'D' ∉ (toString c).toList
  := by
  have hnat : ∀ m : ℕ, 'D' ∉ m.repr.toList := by
    intro m hm
    rw [Nat.repr_eq_ofList_toDigits, String.toList_ofList] at hm
    have hd := Nat.isDigit_of_mem_toDigits (by decide) (by decide) hm
    revert hd
    decide
  intro h
  rw [Int.toString_eq_repr, Int.repr_eq_if] at h
  split at h
  · apply hnat _ h
  · rw [String.toList_append, List.mem_append] at h
    rcases h with h | h
    · revert h
      decide
    · apply hnat _ h

theorem Fresh.noLiteral (h : Fresh fresh p) (hN : ∀ f ∈ N, ∃ i, f = fresh i) :
  NoLiteral N
  := by
  have hD : ∀ f ∈ N, 'D' ∈ f.toList := by
    intro f hf
    obtain ⟨i, rfl⟩ := hN f hf
    obtain ⟨s, hs⟩ := h.dnc i
    rw [hs, String.toList_append]
    apply List.mem_append_left _ (by decide)
  constructor
  · intro c hc
    apply notMem_toString c (hD _ hc)
  · intro ht
    have := hD _ ht
    revert this
    decide
  · intro hf
    have := hD _ hf
    revert this
    decide

/-- What holds of the environment while the subproblems are made. -/
structure DnCEnv.Initial (fresh : ℕ → String) (p : SygusProblem) (env : DnCEnv) : Prop where
  problem : env.problem = p
  interResults : env.interResults = []
  names : ∀ f ∈ env.interResultNames, ∃ i, f = fresh i
  pblms : ∀ q ∈ env.dncPblms, q.2.name ∈ env.interResultNames ∧
    ∃ name args, q.2 = p.createSubProblem name q.1 args

theorem DnCEnv.Initial.addSubExpr {env : DnCEnv} (h : env.Initial fresh p)
    (args : List LIA.Expr) (expr : LIA.Expr) :
  (env.addSubExpr fresh args expr).Initial fresh p
  := by
  rw [DnCEnv.addSubExpr]
  split
  · apply h
  · constructor
    · apply h.problem
    · apply h.interResults
    · intro f hf
      rcases List.mem_append.mp hf with hf | hf
      · apply h.names f hf
      · exact ⟨_, List.mem_singleton.mp hf⟩
    · intro q hq
      rcases List.mem_append.mp hq with hq | hq
      · exact ⟨List.mem_append_left _ (h.pblms q hq).1, (h.pblms q hq).2⟩
      · rw [List.mem_singleton.mp hq]
        refine ⟨List.mem_append_right _ List.mem_cons_self, ?_⟩
        exact ⟨_, args, by rw [h.problem]⟩

theorem DnCEnv.initial_init (fresh : ℕ → String) (feedType : FeedType) (p : SygusProblem)
    (base : LIA.Expr) (args : List LIA.Expr) :
  (DnCEnv.init fresh feedType p base args).Initial fresh p
  := by
  have hfold : ∀ (l : List LIA.Expr) (env : DnCEnv), env.Initial fresh p →
      (l.foldl (DnCEnv.addSubExpr fresh args) env).Initial fresh p := by
    intro l
    induction l with
    | nil => exact fun _ h => h
    | cons e l ih => exact fun env h => ih _ (h.addSubExpr args e)
  have hstart : DnCEnv.Initial fresh p ⟨feedType, p, [], [], []⟩ :=
    ⟨rfl, rfl, by simp, by simp⟩
  cases base with
  | app o l => exact hfold _ _ hstart
  | num m => exact hstart
  | var x => exact hstart

/-- The names of the subproblems. -/
def DnCEnv.subproblems (env : DnCEnv) : Set String := {f | f ∈ env.interResultNames}

theorem Fresh.ok (h : Fresh fresh p) (hN : ∀ f ∈ N, ∃ i, f = fresh i) (R : List String) :
  p.Ok N p.requestArgs.length R
  := by
  constructor
  · intro r hr hrN
    obtain ⟨i, hi⟩ := hN _ hrN
    apply absurd hi (h.rule i r hr)
  · intro f hf
    obtain ⟨i, rfl⟩ := hN f hf
    apply h.sybTypeTbl i
  · intro f hf
    obtain ⟨i, rfl⟩ := hN f hf
    exact .inl (h.glbSybTypeTbl i)
  · rfl

theorem Fresh.ok_init (h : Fresh fresh p) (feedType : FeedType) (base : LIA.Expr)
    (args : List LIA.Expr) :
  (State.init n fresh feedType p base args).Ok
    (DnCEnv.init fresh feedType p base args).subproblems p.requestArgs.length
  := by
  have hinit := DnCEnv.initial_init fresh feedType p base args
  constructor
  · constructor
    · intro f
      rfl
    · rw [State.init, hinit.problem]
      apply h.ok hinit.names _
    · intro q hq
      obtain ⟨hname, name, args', hq'⟩ := hinit.pblms q hq
      refine ⟨?_, hname⟩
      have hp := h.ok hinit.names (State.init n fresh feedType p base args).env.keys
      rw [hq']
      exact ⟨hp.rule, hp.sybTypeTbl, hp.glbSybTypeTbl, hp.requestArgs⟩
    · rw [State.init, hinit.interResults]
      exact .nil
  · intro w
    apply h.ok hinit.names _

theorem step_eq_some {s s' : State n} {e : Fin n × Action} (h : step found s e = some s') :
  ∃ env' m' pc', workerStep found s.env s.pdc1D (s.workers e.1) e.2 = some (env', m', pc') ∧
    s' = ⟨env', m', Function.update s.workers e.1 pc'⟩
  := by
  obtain ⟨⟨env', m', pc'⟩, hr, rfl⟩ := Option.map_eq_some_iff.mp h
  exact ⟨env', m', pc', hr, rfl⟩

/-- One event keeps what holds between two events. -/
theorem State.Ok.step (hlit : NoLiteral N) {s s' : State n} (hs : s.Ok N k)
    {e : Fin n × Action} (h : step found s e = some s') :
  s'.Ok N k ∧ s.env.Extends s'.env
  := by
  obtain ⟨env', m', pc', hr, rfl⟩ := step_eq_some h
  obtain ⟨henv, hext, hpc⟩ := hs.env.workerStep hlit (hs.workers e.1) hr
  refine ⟨⟨henv, ?_⟩, hext⟩
  intro w
  dsimp only
  by_cases hw : w = e.1
  · subst hw
    rw [Function.update_self]
    apply hpc
  · rw [Function.update_of_ne hw]
    apply (hs.workers w).mono hext.mem

theorem run_concat {s s' : State n} {l : List (Fin n × Action)} {e : Fin n × Action} :
  run found s (l ++ [e]) = some s' ↔ ∃ s₁, run found s l = some s₁ ∧ step found s₁ e = some s'
  := by
  have hone : ∀ s₁, List.foldlM (step found) s₁ [e] = step found s₁ e := by
    intro s₁
    rw [List.foldlM_cons]
    apply bind_pure _
  rw [run, List.foldlM_append]
  constructor
  · intro h
    obtain ⟨s₁, hs₁, h⟩ := Option.bind_eq_some_iff.mp h
    rw [hone] at h
    exact ⟨s₁, hs₁, h⟩
  · rintro ⟨s₁, hs₁, h⟩
    apply Option.bind_eq_some_iff.mpr
    use s₁, hs₁
    rw [hone]
    apply h

/-- A run keeps what holds between two events. -/
theorem State.Ok.run (hlit : NoLiteral N) {s s' : State n} (hs : s.Ok N k)
    {l : List (Fin n × Action)} (h : run found s l = some s') :
  s'.Ok N k ∧ s.env.Extends s'.env
  := by
  induction l using List.reverseRecOn generalizing s' with
  | nil =>
      cases h
      exact ⟨hs, .refl _⟩
  | append_singleton l e ih =>
      obtain ⟨s₁, hs₁, h⟩ := run_concat.mp h
      obtain ⟨hok, hext⟩ := ih hs₁
      obtain ⟨hok', hext'⟩ := hok.step hlit h
      exact ⟨hok', hext'.names.trans hext.names, hext.results.trans hext'.results⟩

/-- While worker `w` fills in, its events make its tree lighter and those of the others do not
change what it weighs. -/
theorem State.Ok.run_fill (hlit : NoLiteral N) {s s' : State n} (hs : s.Ok N k) {w : Fin n}
    {results : DefinedFunc} {ast : ASTGeneral} (hw : s.workers w = .fill results ast)
    (hk : 0 < k ∨ s.env.scanInterResults ast = none) {l : List (Fin n × Action)}
    (h : DnC.run found s l = some s') :
  (∃ ast', s'.workers w = .fill results ast' ∧
      (0 < k ∨ s'.env.scanInterResults ast' = none) ∧
      (l.filter fun e => e.1 = w).length + s'.env.weight ast' ≤ s.env.weight ast) ∨
    ∃ results', s'.workers w = .filled results' ∧
      (l.filter fun e => e.1 = w).length ≤ s.env.weight ast + 1
  := by
  induction l using List.reverseRecOn generalizing s' with
  | nil =>
      cases h
      exact .inl ⟨ast, hw, hk, by simp⟩
  | append_singleton l e ih =>
      obtain ⟨s₁, hs₁, h⟩ := run_concat.mp h
      obtain ⟨hok, -⟩ := hs.run hlit hs₁
      obtain ⟨hok', hext⟩ := hok.step hlit h
      obtain ⟨env', m', pc', hr, rfl⟩ := step_eq_some h
      rw [List.filter_append, List.length_append]
      dsimp only
      by_cases he : e.1 = w
      · have hone : ([e].filter fun e => e.1 = w).length = 1 := by simp [he]
        rw [hone]
        subst he
        rw [Function.update_self]
        rcases ih hs₁ with ⟨ast₁, hw₁, hk₁, hlen⟩ | ⟨results', hw₁, hlen⟩
        · obtain ⟨i, a⟩ := e
          rw [hw₁] at hr
          have hcalls : Calls N k s₁.env.keys ast₁ := by
            have := hok.workers i
            rw [hw₁] at this
            apply this
          cases a with
          | go =>
              cases hr
              rcases hok.env.fillStep_spec results hcalls with
                ⟨_, hf⟩ | ⟨hne, ast', hf, _, hlt, _⟩
              · right
                exact ⟨_, hf, by omega⟩
              · left
                have hkpos := hk₁.resolve_right hne
                have hwlt := hlt hkpos
                exact ⟨ast', hf, .inl hkpos, by omega⟩
          | found terms => cases hr
          | notFound => cases hr
          | visit exprs => cases hr
          | stop => cases hr
        · rw [hw₁] at hr
          cases hr
      · have hzero : ([e].filter fun e => e.1 = w).length = 0 := by simp [he]
        rw [hzero, Nat.add_zero]
        rw [Function.update_of_ne (Ne.symm he)]
        rcases ih hs₁ with ⟨ast₁, hw₁, hk₁, hlen⟩ | hfilled
        · left
          have hcalls : Calls N k s₁.env.keys ast₁ := by
            have := hok.workers w
            rw [hw₁] at this
            apply this
          refine ⟨ast₁, hw₁, ?_, ?_⟩
          · rw [hok.env.scan_eq_none] at hk₁
            rw [hok'.env.scan_eq_none]
            apply hk₁
          · rw [hext.weight hok'.env hcalls]
            apply hlen
        · exact .inr hfilled

/-- The filling loop ends when the calls have arguments or there are none. -/
theorem State.Ok.fillEnds (hlit : NoLiteral N) {s : State n} (hs : s.Ok N k) {w : Fin n}
    {results : DefinedFunc} {ast : ASTGeneral} (hw : s.workers w = .fill results ast)
    (hk : 0 < k ∨ s.env.scanInterResults ast = none) :
  FillEnds found s w
  := by
  constructor
  · use s.env.weight ast + 1
    intro l s' h
    rcases hs.run_fill hlit hw hk h with ⟨_, -, -, hlen⟩ | ⟨_, -, hlen⟩
    · omega
    · apply hlen
  · intro l s' h
    have hok := (hs.run hlit h).1
    rcases hs.run_fill hlit hw hk h with ⟨ast', hw', -⟩ | ⟨results', hw', -⟩
    · left
      refine ⟨results, ast', hw', ?_⟩
      rw [DnC.step, hw']
      rfl
    · right
      refine ⟨results', hw', hok.env.scan_eq_none.mpr ?_⟩
      have := hok.workers w
      rw [hw'] at this
      apply this

/-- A call without arguments is never filled in, and the loop repeats itself. -/
theorem State.Ok.not_fillEnds {s : State n} (hs : s.Ok N 0) {w : Fin n}
    {results : DefinedFunc} {ast : ASTGeneral} (hw : s.workers w = .fill results ast)
    (hne : s.env.scanInterResults ast ≠ none) :
  ¬ FillEnds found s w
  := by
  have hcalls : Calls N 0 s.env.keys ast := by
    have := hs.workers w
    rw [hw] at this
    apply this
  have hstep : DnC.step found s (w, .go) = some s := by
    rcases hs.env.fillStep_spec results hcalls with ⟨hnone, _⟩ | ⟨_, ast', hf, _, _, heq⟩
    · apply absurd hnone hne
    · rw [heq rfl] at hf
      have hupd : Function.update s.workers w (fillStep s.env results ast) = s.workers := by
        rw [hf, ← hw, Function.update_eq_self]
      rw [DnC.step, hw]
      change some (State.mk s.env s.pdc1D
        (Function.update s.workers w (fillStep s.env results ast))) = some s
      rw [hupd]
  have hrun : ∀ m, DnC.run found s (List.replicate m (w, .go)) = some s := by
    intro m
    induction m with
    | zero => rfl
    | succ m ih =>
        rw [List.replicate_succ, DnC.run, List.foldlM_cons, hstep]
        apply ih
  intro h
  obtain ⟨b, hb⟩ := h.bounded
  have hlen := hb _ _ (hrun (b + 1))
  rw [List.filter_replicate] at hlen
  simp at hlen

/-- In every state that any interleaving reaches the recorded results do not depend on each other
in a cycle, and a filling loop ends, with a tree that calls no subproblem, if and only if the
function to synthesise has an argument or the tree calls no subproblem from the start. -/
theorem acyclic_and_fillEnds_iff (hfresh : Fresh fresh p) {feedType : FeedType}
    {dncBaseExpr : LIA.Expr} {dncBaseArgs : List LIA.Expr} {l : List (Fin n × Action)}
    {s : State n}
    (hrun : run found (State.init n fresh feedType p dncBaseExpr dncBaseArgs) l = some s) :
  s.env.Acyclic ∧ ∀ w results ast, s.workers w = .fill results ast →
    (FillEnds found s w ↔ 0 < p.requestArgs.length ∨ s.env.scanInterResults ast = none)
  := by
  have hlit := hfresh.noLiteral
    (DnCEnv.initial_init fresh feedType p dncBaseExpr dncBaseArgs).names
  obtain ⟨hok, -⟩ := (hfresh.ok_init feedType dncBaseExpr dncBaseArgs).run hlit hrun
  refine ⟨hok.env.acyclic, ?_⟩
  intro w results ast hw
  constructor
  · intro h
    by_contra hnot
    push Not at hnot
    have hzero : p.requestArgs.length = 0 := by omega
    rw [hzero] at hok
    apply hok.not_fillEnds hw hnot.2 h
  · apply hok.fillEnds hlit hw

end Runs

/-! ### Two problems -/

/-- Names as `mkFreshFuncDecl("DnC", …)` gives them. -/
def dncName (i : ℕ) : String := "DnC!" ++ toString i

theorem ne_dncName {f : String} (h : 'D' ∉ f.toList) (i : ℕ) :
  f ≠ dncName i
  := by
  rintro rfl
  apply h
  rw [dncName, String.toList_append]
  apply List.mem_append_left _ (by decide)

/-- Names without the letter `D` clash with no fresh one. -/
theorem fresh_dncName {p : SygusProblem} (syms : List String)
    (hsyms : ∀ f ∈ syms, 'D' ∉ f.toList) (hrule : ∀ r ∈ p.ruleTbl, r.termSyb ∈ syms)
    (hcfg : ∀ f ∉ syms, p.cfg.sybTypeTbl f = none) (hglb : ∀ f ∉ syms, p.glbSybTypeTbl f = none) :
  Fresh dncName p
  := by
  have hnot : ∀ i, dncName i ∉ syms := fun i hi => ne_dncName (hsyms _ hi) i rfl
  constructor
  · intro i
    use "!" ++ toString i
    rw [dncName, ← String.append_assoc]
    rfl
  · intro i r hr h
    exact hnot i (h ▸ hrule r hr)
  · exact fun i => hcfg _ (hnot i)
  · exact fun i => hglb _ (hnot i)

/-- `f(x) = (+ (ite (> x 0) x 1) (ite (> x 0) x 1))` over the grammar
`x | 1 | (+ Start Start) | (m Start)`, with `m` the maximum of its argument and one. -/
def twiceMax : SygusProblem where
  request := ⟨"f", [.int], .int⟩
  requestArgs := ["x"]
  finalConstraint :=
    let x : LIA.Expr := .var ⟨"x", .int⟩
    let e : LIA.Expr := .ite (.gt x (.num 0)) x (.num 1)
    .eq (.func ⟨"f", [.int], .int⟩ [x]) (.add [e, e])
  funcs := []
  glbSybTypeTbl f :=
    if f = "1" then some .numeral else if f = "+" ∨ f = "m" then some .func
    else if f = "x" then some .glbvar else none
  cfg :=
    { grammarRules :=
        [("Start", [⟨"x", []⟩, ⟨"1", []⟩, ⟨"+", ["Start", "Start"]⟩, ⟨"m", ["Start"]⟩])]
      sybTypeTbl := fun f =>
        if f = "Start" then some .symbol else if f = "x" then some .lclarg else none }

/-- The conditional of `twiceMax`. -/
def maxExpr : LIA.Expr :=
  .ite (.gt (.var ⟨"x", .int⟩) (.num 0)) (.var ⟨"x", .int⟩) (.num 1)

/-- `f() = (+ (ite (> y 0) 1 1) 1)` over the grammar `1 | (g 5) | (+ B B)`, `B` being `1`, with
`g` adding two to its argument. -/
def constantTwo : SygusProblem where
  request := ⟨"f", [], .int⟩
  requestArgs := []
  finalConstraint :=
    .eq (.func ⟨"f", [], .int⟩ [])
      (.add [.ite (.gt (.var ⟨"y", .int⟩) (.num 0)) (.num 1) (.num 1), .num 1])
  funcs := []
  glbSybTypeTbl f :=
    if f = "1" ∨ f = "5" then some .numeral else if f = "+" ∨ f = "g" then some .func
    else if f = "y" then some .glbvar else none
  cfg :=
    { grammarRules :=
        [("Start", [⟨"1", []⟩, ⟨"g", ["5"]⟩, ⟨"+", ["B", "B"]⟩]), ("B", [⟨"1", []⟩]),
          ("5", [⟨"5", []⟩])]
      sybTypeTbl := fun f =>
        if f = "Start" ∨ f = "B" then some .symbol else if f = "5" then some .literal else none }

/-- The conditional of `constantTwo`. -/
def oneExpr : LIA.Expr := .ite (.gt (.var ⟨"y", .int⟩) (.num 0)) (.num 1) (.num 1)

theorem fresh_twiceMax :
  Fresh dncName twiceMax
  := by
  apply fresh_dncName ["1", "+", "m", "x", "Start"]
  · decide
  · decide
  · intro f hf
    simp only [List.mem_cons, List.not_mem_nil, or_false, not_or] at hf
    simp [twiceMax, hf]
  · intro f hf
    simp only [List.mem_cons, List.not_mem_nil, or_false, not_or] at hf
    simp [twiceMax, hf]

theorem fresh_constantTwo :
  Fresh dncName constantTwo
  := by
  apply fresh_dncName ["1", "5", "+", "g", "y", "Start", "B"]
  · decide
  · decide
  · intro f hf
    simp only [List.mem_cons, List.not_mem_nil, or_false, not_or] at hf
    simp [constantTwo, hf]
  · intro f hf
    simp only [List.mem_cons, List.not_mem_nil, or_false, not_or] at hf
    simp [constantTwo, hf]

/-- The first vectors that solve `twiceMax` with its subproblem, and the subproblem. -/
def foundMax : Found := fun p len terms =>
  (p.name = "f" ∧ len = 5 ∧ terms = [2, 4, 0, 4, 0]) ∨ (p.name = "DnC!0" ∧ len = 2 ∧ terms = [3, 0])

/-- Five iterations of one worker; the second one records `(m x)` for the subproblem. -/
def scheduleMax : List (Fin 1 × Action) :=
  let actions : List (List Action) :=
    [[.go], [.go, .notFound, .visit [maxExpr], .go, .notFound, .go, .go, .go],
      [.go, .notFound, .visit [maxExpr], .go, .found [3, 0], .go, .go, .go, .notFound],
      [.go, .notFound, .visit [maxExpr], .go, .go, .go],
      [.go, .notFound, .visit [maxExpr], .go, .go, .go], [.go, .found [2, 4, 0, 4, 0], .go]]
  actions.flatten.map fun a => (0, a)

/-- The state in which the workers of `twiceMax` are made. -/
def initMax : State 1 :=
  State.init 1 dncName .heightOnly twiceMax (.add [maxExpr, maxExpr]) [.var ⟨"x", .int⟩]

theorem acyclic_and_fillEnds_iff_twiceMax :
  ∃ s, run foundMax initMax scheduleMax = some s ∧
    s.env.Acyclic ∧ ∀ w results ast, s.workers w = .fill results ast →
      (FillEnds foundMax s w ↔
        0 < twiceMax.requestArgs.length ∨ s.env.scanInterResults ast = none)
  := by
  have hsome : (run foundMax initMax scheduleMax).isSome := by decide +kernel
  obtain ⟨s, hs⟩ := Option.isSome_iff_exists.mp hsome
  exact ⟨s, hs, acyclic_and_fillEnds_iff fresh_twiceMax hs⟩

/-- `(+ DnC!0 1)` and `1` solve `constantTwo` and its subproblem. -/
def foundTwo : Found := fun p len terms =>
  (p.name = "f" ∧ len = 3 ∧ terms = [2, 3, 4]) ∨ (p.name = "DnC!0" ∧ len = 1 ∧ terms = [0])

/-- The first worker records `1` for the subproblem, the second one skips the subproblem and
solves the problem in its next iteration. -/
def scheduleTwo : List (Fin 2 × Action) :=
  [(0, .go), (0, .go), (1, .go), (1, .go), (0, .notFound), (0, .visit [oneExpr]), (0, .go),
    (0, .found [0]), (0, .go), (1, .notFound), (1, .visit [oneExpr]), (1, .go), (1, .go), (1, .go),
    (1, .go), (1, .found [2, 3, 4]), (1, .go)]

/-- The state in which the workers of `constantTwo` are made. -/
def initTwo : State 2 := State.init 2 dncName .heightOnly constantTwo (.add [oneExpr, .num 1]) []

/-- The second worker stands before a tree with a call. -/
def fillsCall (s : State 2) : Bool :=
  match s.workers 1 with
  | .fill _ ast => (s.env.scanInterResults ast).isSome
  | _ => false

theorem not_fillEnds_constantTwo :
  ¬ ∀ (n : ℕ) (found : Found) (fresh : ℕ → String) (p : SygusProblem), Fresh fresh p →
    ∀ (feedType : FeedType) (dncBaseExpr : LIA.Expr) (dncBaseArgs : List LIA.Expr)
      (l : List (Fin n × Action)) (s : State n),
      run found (State.init n fresh feedType p dncBaseExpr dncBaseArgs) l = some s →
        s.env.Acyclic ∧ ∀ w results ast, s.workers w = .fill results ast → FillEnds found s w
  := by
  intro h
  have hrun : ((run foundTwo initTwo scheduleTwo).map fillsCall) = some true := by
    decide +kernel
  obtain ⟨s, hs, hfill⟩ := Option.map_eq_some_iff.mp hrun
  have hends := (h 2 foundTwo dncName constantTwo fresh_constantTwo _ _ _ _ s hs).2
  have hlit := fresh_constantTwo.noLiteral
    (DnCEnv.initial_init dncName .heightOnly constantTwo (.add [oneExpr, .num 1]) []).names
  obtain ⟨hok, -⟩ := (fresh_constantTwo.ok_init .heightOnly (.add [oneExpr, .num 1]) []).run hlit hs
  rw [fillsCall] at hfill
  split at hfill
  · rename_i results ast hw
    apply hok.not_fillEnds hw _ (hends 1 results ast hw)
    intro hnone
    rw [hnone] at hfill
    cases hfill
  · cases hfill

end DnC

end Sygus
