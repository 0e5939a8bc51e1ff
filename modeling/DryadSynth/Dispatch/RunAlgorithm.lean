import DryadSynth.Library.Machine

/-!
# The waiting loop of the dispatcher

With more than one core `runAlgorithm` starts the workers `threads[0], …` and then, until it has
results, waits on `env`, scans the results of the workers and tests `runningThreads`.  A worker
increments `runningThreads`, computes, notifies `env` and decrements `runningThreads`.

A schedule is a list of events, each the next action of one thread.  An event whose thread is
not at that point of its program is skipped, so that every list of events is an interleaving.

The dispatcher does not test anything between taking the monitor of `env` and waiting on it.
`Stuck` is the state of a lost wake-up; `run_not_stuck` and `exists_stuck_of_enter` say which
schedules reach it.
-/

namespace DryadSynth

namespace RunAlgorithm

/-- The points of `Cegis.run` and `InvDnC.run`. -/
inductive WorkerPc where
  /-- The thread object exists and was not started. -/
  | created
  /-- Before `env.runningThreads.incrementAndGet()`. -/
  | started
  /-- Computing: `cegis()`, `search(..)` or `solve()`. -/
  | running
  /-- Before `synchronized(env) { env.notify(); }`. -/
  | computed
  /-- Before `env.runningThreads.decrementAndGet()`. -/
  | notified
  /-- After `run` returned. -/
  | finished
  deriving DecidableEq, Repr

/-- The notification of a worker is still to come. -/
def WorkerPc.NotifyAhead : WorkerPc → Prop
  | created | started | running | computed => True
  | notified | finished => False

instance : DecidablePred WorkerPc.NotifyAhead := fun pc =>
  match pc with
  | .created | .started | .running | .computed => .isTrue trivial
  | .notified | .finished => .isFalse id

/-- The contribution of a worker to `runningThreads`. -/
def WorkerPc.counted : WorkerPc → ℤ
  | created | started | finished => 0
  | running | computed | notified => 1

/-- A worker with its fields `results` and `nosolution`. -/
structure Worker (R : Type) where
  pc : WorkerPc
  results : Option R
  nosolution : Bool
  deriving DecidableEq

/-- The points of the loop of `runAlgorithm`. -/
inductive DispatcherPc (R : Type) where
  /-- Before `threads[i].start()`. -/
  | start (i : ℕ)
  /-- At `while (results == null)`. -/
  | test
  /-- Before `synchronized(env) { env.wait(); }`. -/
  | enter
  /-- Blocked in `env.wait()`. -/
  | wait
  /-- Notified, about to leave `env.wait()`. -/
  | woken
  /-- Before the scan of `threads[i].results`. -/
  | scan (i : ℕ)
  /-- At `if (env.runningThreads.get() == 0)`. -/
  | count
  /-- At the tests of `checkITOnly`, `methodOnly` and `heightsOnly`. -/
  | options
  /-- After the loop, with the value that is returned. -/
  | returned (r : Option R)
  deriving DecidableEq

/-- The options that end the loop after its first iteration. -/
structure Options where
  checkITOnly : Bool
  methodOnly : Bool
  heightsOnly : Bool

/-- The workers, the shared counter, and the dispatcher with its variables. -/
structure State (n : ℕ) (R : Type) where
  workers : Fin n → Worker R
  runningThreads : ℤ
  pc : DispatcherPc R
  results : Option R
  nosolution : Bool

/-- An action of a worker. -/
inductive WorkerEvent (R : Type) where
  | increment
  /-- The computation stores results. -/
  | setResults (r : R) (nosolution : Bool)
  /-- The computation finds that there is no solution, and stores no results. -/
  | setNoSolution
  /-- The computation ends, with or without results. -/
  | compute
  | notify
  | decrement
  deriving DecidableEq

/-- An action of one thread. -/
inductive Event (n : ℕ) (R : Type) where
  | dispatcher
  /-- `env.wait()` returns although nobody notified. -/
  | spurious
  | worker (i : Fin n) (e : WorkerEvent R)
  deriving DecidableEq

variable {n : ℕ} {R : Type}

/-- The state in which `runAlgorithm` starts. -/
def init (n : ℕ) (R : Type) : State n R where
  workers _ := ⟨.created, none, false⟩
  runningThreads := 0
  pc := .start 0
  results := none
  nosolution := false

/-- The workers, with worker `i` replaced. -/
def State.setWorker (s : State n R) (i : Fin n) (w : Worker R) : Fin n → Worker R :=
  Function.update s.workers i w

/-- The workers, with worker `i` at another point of its program. -/
def State.setPc (s : State n R) (i : Fin n) (pc : WorkerPc) : Fin n → Worker R :=
  s.setWorker i { s.workers i with pc := pc }

/-- The effect of `env.notify()` on the dispatcher, the only thread that waits on `env`. -/
def DispatcherPc.wake : DispatcherPc R → DispatcherPc R
  | wait => woken
  | pc => pc

/-- The action of worker `i`. -/
def stepWorker (s : State n R) (i : Fin n) (e : WorkerEvent R) : State n R :=
  match (s.workers i).pc, e with
  | .started, .increment =>
      { s with workers := s.setPc i .running, runningThreads := s.runningThreads + 1 }
  | .running, .setResults r b =>
      { s with workers := s.setWorker i { s.workers i with results := some r, nosolution := b } }
  | .running, .setNoSolution =>
      { s with workers := s.setWorker i { s.workers i with nosolution := true } }
  | .running, .compute => { s with workers := s.setPc i .computed }
  | .computed, .notify => { s with workers := s.setPc i .notified, pc := s.pc.wake }
  | .notified, .decrement =>
      { s with workers := s.setPc i .finished, runningThreads := s.runningThreads - 1 }
  | _, _ => s

/-- The scan of one worker: `results` keeps the last ones found. -/
def State.scanWorker (s : State n R) (w : Worker R) : Option R × Bool :=
  match w.results with
  | some r => (some r, s.nosolution || w.nosolution)
  | none => (s.results, s.nosolution)

/-- The next action of the dispatcher. -/
def stepDispatcher (o : Options) (s : State n R) : State n R :=
  match s.pc with
  | .start i =>
      if h : i < n then
        { s with workers := s.setPc ⟨i, h⟩ .started, pc := .start (i + 1) }
      else { s with pc := .test }
  | .test => { s with pc := if s.results.isSome then .returned s.results else .enter }
  | .enter => { s with pc := .wait }
  | .wait => s
  | .woken => { s with pc := .scan 0 }
  | .scan i =>
      if h : i < n then
        { s with
          results := (s.scanWorker (s.workers ⟨i, h⟩)).1
          nosolution := (s.scanWorker (s.workers ⟨i, h⟩)).2
          pc := .scan (i + 1) }
      else { s with pc := .count }
  | .count => { s with pc := if s.runningThreads = 0 then .returned s.results else .options }
  | .options =>
      { s with
        pc :=
          if o.checkITOnly then .returned s.results
          else if o.methodOnly || o.heightsOnly then .returned none
          else .test }
  | .returned _ => s

/-- One event of a schedule. -/
def step (o : Options) (s : State n R) : Event n R → State n R
  | .dispatcher => stepDispatcher o s
  | .spurious => { s with pc := s.pc.wake }
  | .worker i e => stepWorker s i e

/-- The state after a schedule. -/
def run (o : Options) (s : State n R) (l : List (Event n R)) : State n R :=
  l.foldl (step o) s

/-- The dispatcher is blocked, no worker will notify, and either all workers have finished or
one of them holds results. -/
def Stuck (s : State n R) : Prop :=
  s.pc = .wait ∧ (∀ i, ¬ (s.workers i).pc.NotifyAhead) ∧
    ((∀ i, (s.workers i).pc = .finished) ∨ ∃ i, (s.workers i).results ≠ none)

/-- If the event is the dispatcher entering `env.wait()`, then the notification of some worker
is still to come. -/
def EntersInTime (s : State n R) (e : Event n R) : Prop :=
  e = .dispatcher → s.pc = .enter → ∃ i, (s.workers i).pc.NotifyAhead

/-- Every event of a schedule satisfies a condition on the state before it. -/
def EachStep (o : Options) (C : State n R → Event n R → Prop) :
    State n R → List (Event n R) → Prop
  | _, [] => True
  | s, e :: l => C s e ∧ EachStep o C (step o s e) l

instance [DecidableEq R] (s : State n R) (e : Event n R) : Decidable (EntersInTime s e) :=
  inferInstanceAs (Decidable (e = .dispatcher → s.pc = .enter → ∃ i, (s.workers i).pc.NotifyAhead))

instance (o : Options) (C : State n R → Event n R → Prop) [∀ s e, Decidable (C s e)]
    (s : State n R) (l : List (Event n R)) : Decidable (EachStep o C s l) :=
  match l with
  | [] => .isTrue trivial
  | e :: l =>
      have := instDecidableEachStep o C (step o s e) l
      inferInstanceAs (Decidable (C s e ∧ EachStep o C (step o s e) l))

/-! ### Actions -/

section Step

variable {o : Options} {s : State n R}

@[simp]
theorem setWorker_self (i : Fin n) (w : Worker R) :
  s.setWorker i w i = w
  := by simp [State.setWorker]

@[simp]
theorem setWorker_of_ne {i j : Fin n} (w : Worker R) (h : j ≠ i) :
  s.setWorker i w j = s.workers j
  := by simp [State.setWorker, h]

@[simp]
theorem setPc_self (i : Fin n) (pc : WorkerPc) :
  s.setPc i pc i = { s.workers i with pc := pc }
  := setWorker_self i _

@[simp]
theorem setPc_of_ne {i j : Fin n} (pc : WorkerPc) (h : j ≠ i) :
  s.setPc i pc j = s.workers j
  := setWorker_of_ne _ h

@[simp]
theorem wake_ne_wait (pc : DispatcherPc R) :
  pc.wake ≠ .wait
  := by
  cases pc with
  | _ => simp [DispatcherPc.wake]

/-- What an action of a worker does: nothing, an action of the computation or of the counter
that keeps the notification ahead, the notification, or the decrement. -/
theorem stepWorker_cases (s : State n R) (i : Fin n) (e : WorkerEvent R) :
  stepWorker s i e = s ∨
    (∃ w : Worker R, (s.workers i).pc.NotifyAhead ∧ w.pc.NotifyAhead ∧
      stepWorker s i e
        = { s with
            workers := s.setWorker i w
            runningThreads := s.runningThreads + (w.pc.counted - (s.workers i).pc.counted) }) ∨
    ((s.workers i).pc = .computed ∧
      stepWorker s i e = { s with workers := s.setPc i .notified, pc := s.pc.wake }) ∨
    ((s.workers i).pc = .notified ∧
      stepWorker s i e
        = { s with workers := s.setPc i .finished, runningThreads := s.runningThreads - 1 })
  := by
  unfold stepWorker
  split
  · next hpc =>
      right; left
      use { s.workers i with pc := .running }
      simp [hpc, WorkerPc.NotifyAhead, WorkerPc.counted, State.setPc]
  · next r b hpc =>
      right; left
      use { s.workers i with results := some r, nosolution := b }
      simp [hpc, WorkerPc.NotifyAhead]
  · next hpc =>
      right; left
      use { s.workers i with nosolution := true }
      simp [hpc, WorkerPc.NotifyAhead]
  · next hpc =>
      right; left
      use { s.workers i with pc := .computed }
      simp [hpc, WorkerPc.NotifyAhead, WorkerPc.counted, State.setPc]
  · next hpc => exact Or.inr (Or.inr (Or.inl ⟨hpc, rfl⟩))
  · next hpc => exact Or.inr (Or.inr (Or.inr ⟨hpc, rfl⟩))
  · apply Or.inl rfl

/-- The dispatcher blocks only where it enters `env.wait()`. -/
theorem eq_enter_of_stepDispatcher (h : (stepDispatcher o s).pc = .wait) :
  (s.pc = .enter ∨ s.pc = .wait) ∧ (stepDispatcher o s).workers = s.workers
  := by
  unfold stepDispatcher at h ⊢
  cases hpc : s.pc with
  | start i =>
      simp only [hpc] at h
      split at h
      · cases h
      · cases h
  | test =>
      simp only [hpc] at h
      split at h
      · cases h
      · cases h
  | enter => simp
  | wait => simp
  | woken => simp [hpc] at h
  | scan i =>
      simp only [hpc] at h
      split at h
      · cases h
      · cases h
  | count =>
      simp only [hpc] at h
      split at h
      · cases h
      · cases h
  | options =>
      simp only [hpc] at h
      split at h
      · cases h
      · split at h
        · cases h
        · cases h
  | returned r => simp [hpc] at h

end Step

/-! ### Lost wake-ups -/

section Stuck

variable {o : Options} {s : State n R}

/-- Where the dispatcher is blocked, the notification of some worker is still to come. -/
def Awaited (s : State n R) : Prop :=
  s.pc = .wait → ∃ i, (s.workers i).pc.NotifyAhead

theorem Awaited.not_stuck (h : Awaited s) :
  ¬ Stuck s
  := by
  rintro ⟨hpc, hnone, -⟩
  obtain ⟨i, hi⟩ := h hpc
  apply hnone i hi

theorem awaited_init (n : ℕ) (R : Type) :
  Awaited (init n R)
  := nofun

/-- The action of a worker keeps a notification ahead, or wakes the dispatcher. -/
theorem Awaited.stepWorker (h : Awaited s) (i : Fin n) (e : WorkerEvent R) :
  Awaited (stepWorker s i e)
  := by
  rcases stepWorker_cases s i e with hs | ⟨w, -, hw, hs⟩ | ⟨-, hs⟩ | ⟨hpc, hs⟩
  · rw [hs]
    apply h
  · rw [hs]
    intro _
    use i
    simp only [setWorker_self]
    apply hw
  · rw [hs]
    intro hwait
    apply absurd hwait (wake_ne_wait s.pc)
  · rw [hs]
    intro hwait
    obtain ⟨j, hj⟩ := h hwait
    have hne : j ≠ i := by
      rintro rfl
      rw [hpc] at hj
      apply hj
    use j
    simp only [setPc_of_ne _ hne]
    apply hj

theorem Awaited.stepDispatcher (h : Awaited s) (htime : EntersInTime s .dispatcher) :
  Awaited (stepDispatcher o s)
  := by
  intro hwait
  obtain ⟨hpc, hworkers⟩ := eq_enter_of_stepDispatcher hwait
  rw [hworkers]
  rcases hpc with hpc | hpc
  · apply htime rfl hpc
  · apply h hpc

theorem Awaited.step (h : Awaited s) {e : Event n R} (htime : EntersInTime s e) :
  Awaited (step o s e)
  := by
  cases e with
  | dispatcher => exact h.stepDispatcher htime
  | spurious =>
      intro hwait
      apply absurd hwait (wake_ne_wait s.pc)
  | worker i e => exact h.stepWorker i e

theorem Awaited.run (h : Awaited s) {l : List (Event n R)} (htime : EachStep o EntersInTime s l) :
  Awaited (run o s l)
  := by
  induction l generalizing s with
  | nil => exact h
  | cons e l ih => apply ih (h.step htime.1) htime.2

theorem EachStep.of_prefix {C : State n R → Event n R → Prop} {l l' : List (Event n R)}
    (h : EachStep o C s l) (hpre : l' <+: l) :
  EachStep o C s l'
  := by
  induction l generalizing s l' with
  | nil =>
      obtain rfl := List.prefix_nil.mp hpre
      trivial
  | cons e l ih =>
      rcases List.prefix_cons_iff.mp hpre with rfl | ⟨t, rfl, ht⟩
      · trivial
      · exact ⟨h.1, ih h.2 ht⟩

/-- In a schedule in which the dispatcher never enters `env.wait()` after the last notification,
no state is stuck. -/
theorem run_not_stuck {l : List (Event n R)} (htime : EachStep o EntersInTime (init n R) l)
    {l' : List (Event n R)} (hpre : l' <+: l) :
  ¬ Stuck (run o (init n R) l')
  := ((awaited_init n R).run (htime.of_prefix hpre)).not_stuck

/-- Two workers that find results while the dispatcher waits for each of them. -/
theorem run_not_stuck_two :
  ¬ Stuck (run ⟨false, false, false⟩ (init 2 ℕ)
    [.dispatcher, .dispatcher, .dispatcher, .worker 0 .increment, .worker 1 .increment,
      .dispatcher, .dispatcher, .worker 0 (.setResults 7 false), .worker 0 .compute,
      .worker 0 .notify])
  := by
  apply run_not_stuck _ List.prefix_rfl
  decide

/-- Both workers finish before the dispatcher enters `env.wait()`, one of them with results. -/
theorem lost_wakeup :
  ∃ l : List (Event 2 ℕ), Stuck (run ⟨false, false, false⟩ (init 2 ℕ) l)
  := by
  use [.dispatcher, .dispatcher, .dispatcher, .dispatcher,
    .worker 0 .increment, .worker 0 (.setResults 7 false), .worker 0 .compute, .worker 0 .notify,
    .worker 0 .decrement, .worker 1 .increment, .worker 1 .compute, .worker 1 .notify,
    .worker 1 .decrement, .dispatcher]
  unfold Stuck
  decide

/-- While the dispatcher is blocked and no worker will notify, the decrements of the workers
finish them and change nothing else. -/
theorem run_decrements (hpc : s.pc = .wait) (hnone : ∀ i, ¬ (s.workers i).pc.NotifyAhead)
    (l : List (Fin n)) :
  let s' := run o s (l.map fun i => .worker i .decrement)
  s'.pc = .wait ∧ (∀ i, ¬ (s'.workers i).pc.NotifyAhead) ∧
    ∀ i, (i ∈ l ∨ (s.workers i).pc = .finished) → (s'.workers i).pc = .finished
  := by
  induction l generalizing s with
  | nil => exact ⟨hpc, hnone, fun i hi => hi.resolve_left List.not_mem_nil⟩
  | cons j l ih =>
      -- the decrement of worker `j` finishes it, or finds it finished
      have hstep : (stepWorker s j .decrement).pc = .wait ∧
          ∀ i, ((stepWorker s j .decrement).workers i).pc
            = if i = j then .finished else (s.workers i).pc := by
        rcases hj : (s.workers j).pc with _ | _ | _ | _ | _ | _
        · apply absurd (by rw [hj]; trivial) (hnone j)
        · apply absurd (by rw [hj]; trivial) (hnone j)
        · apply absurd (by rw [hj]; trivial) (hnone j)
        · apply absurd (by rw [hj]; trivial) (hnone j)
        · simp only [stepWorker, hj]
          refine ⟨hpc, fun i => ?_⟩
          split
          · next hi => rw [hi, setPc_self]
          · next hi => rw [setPc_of_ne _ hi]
        · simp only [stepWorker, hj]
          refine ⟨hpc, fun i => ?_⟩
          split
          · next hi => rw [hi, hj]
          · rfl
      obtain ⟨hpc', hworkers⟩ := hstep
      have hnone' : ∀ i, ¬ ((stepWorker s j .decrement).workers i).pc.NotifyAhead := by
        intro i
        rw [hworkers]
        split
        · apply id
        · apply hnone i
      obtain ⟨h₁, h₂, h₃⟩ := ih hpc' hnone'
      refine ⟨h₁, h₂, fun i hi => h₃ i ?_⟩
      rw [hworkers]
      split
      · apply Or.inr rfl
      · next hne =>
          rw [List.mem_cons, or_iff_right hne] at hi
          apply hi

/-- A dispatcher that enters `env.wait()` after the last notification gets stuck in some
continuation of the schedule. -/
theorem exists_stuck_of_enter (h : ¬ EntersInTime s .dispatcher) :
  ∃ l, Stuck (run o s l)
  := by
  simp only [EntersInTime, true_implies, Classical.not_imp, not_exists] at h
  obtain ⟨hpc, hnone⟩ := h
  have hwait : stepDispatcher o s = { s with pc := .wait } := by simp [stepDispatcher, hpc]
  use .dispatcher :: (List.finRange n).map fun i => .worker i .decrement
  obtain ⟨h₁, h₂, h₃⟩ :=
    run_decrements (o := o) (s := { s with pc := .wait }) rfl hnone (List.finRange n)
  change Stuck (run o (stepDispatcher o s) _)
  rw [hwait]
  exact ⟨h₁, h₂, Or.inl fun i => h₃ i (Or.inl (List.mem_finRange i))⟩

/-- Every schedule in which the dispatcher enters `env.wait()` too late has a beginning that can
be continued to a stuck state. -/
theorem exists_stuck_of_not_eachStep {l : List (Event n R)} (h : ¬ EachStep o EntersInTime s l) :
  ∃ pre, pre <+: l ∧ ∃ l', Stuck (run o s (pre ++ l'))
  := by
  induction l generalizing s with
  | nil => exact absurd trivial h
  | cons e l ih =>
      by_cases htime : EntersInTime s e
      · obtain ⟨pre, hpre, l', hl'⟩ := ih fun hl => h ⟨htime, hl⟩
        use e :: pre, List.prefix_cons_inj e |>.mpr hpre, l'
        apply hl'
      · have he : e = .dispatcher := by
          by_contra hne
          apply htime
          intro he
          apply absurd he hne
        rw [he] at htime
        obtain ⟨l', hl'⟩ := exists_stuck_of_enter (o := o) htime
        use [], List.nil_prefix, l'
        apply hl'

end Stuck

end RunAlgorithm

end DryadSynth
