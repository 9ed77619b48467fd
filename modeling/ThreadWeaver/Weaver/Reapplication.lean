import ThreadWeaver.Weaver.Threads

/-!
# Activations of `applyForWork`

The loop of a worker that waits for a job is a recursion: a state object that got no job calls
`Weaver::applyForWork` again and returns what that returns.  All activations are still pending when
the next one is entered, and they return together, when the last of them is handed a job or the
thread has to exit.

So a worker that is woken and finds nothing to do has one activation more each time, and there is
no bound on them.  One job is enqueued, for which a thread is created, and the weaver is suspended:
the thread waits, `reschedule` wakes it, and it applies again.  A program without jobs comes to the
same when it raises the maximum number of threads.
-/

namespace ThreadWeaver.Weaver

open Library (RunWhere)

variable {J P T σ ε : Type*} [DecidableEq J] [DecidableEq P] [DecidableEq T]
  {S : Setup J P σ ε} {s : State J P T σ ε}

/-! ## In a suspended weaver -/

/-- The calls are those of `enqueue`, `reschedule`, `suspend` and `resume`. -/
def Act.wakes : Act J P T ε → Bool
  | enqueue _ | reschedule | suspend _ | resume _ | proceed _ | worker _ => true
  | _ => false

/-- Nothing else is called. -/
def OnlyWakes (_ : State J P T σ ε) (action : Act J P T ε) : Prop := action.wakes = true

theorem Runs.wake {start : Start J P σ} {next : State J P T σ ε} {action : Act J P T ε}
    (run : Runs S OnlyWakes start s) (hstep : step S s action = some next)
    (hwakes : action.wakes = true) : Runs S OnlyWakes start next :=
  run.tail hwakes hstep

/-- The first thread stands at `pc` with `n` applications pending, and the state object is `id`. -/
structure State.Stands (id : StateId) (pc : WorkerPc J) (n : ℕ) (s : State J P T σ ε) : Prop where
  stateId : s.stateId = id
  worker : s.worker 0 = ⟨pc, n⟩
  createdThreads : 0 < s.createdThreads
  active : s.active = 0
  expiredThreads : s.expiredThreads = []

namespace State.Stands

variable {id : StateId} {pc next : WorkerPc J} {n : ℕ}

omit [DecidableEq J] [DecidableEq P] [DecidableEq T] in
theorem moveTo (h : s.Stands id pc n) (next : WorkerPc J) :
    (s.moveTo 0 next).Stands id next n where
  stateId := h.stateId
  worker := by simp [State.moveTo, h.worker]
  createdThreads := h.createdThreads
  active := h.active
  expiredThreads := h.expiredThreads

theorem exists_step (h : s.Stands id pc n) (hmoves : workerStep S 0 s = some (s.moveTo 0 next)) :
    ∃ mid, step S s (.worker 0) = some mid ∧ mid.Stands id next n :=
  ⟨_, (if_pos h.createdThreads).trans hmoves, h.moveTo next⟩

theorem exists_dispatched (h : s.Stands id (.applyForWork false) n) :
    ∃ mid, step S s (.worker 0) = some mid ∧ mid.Stands id (.dispatched id false) (n + 1) := by
  refine ⟨{ s with worker := Function.update s.worker 0 ⟨.dispatched id false, n + 1⟩ },
    (if_pos h.createdThreads).trans ?_, h.stateId, by simp, h.createdThreads, h.active,
    h.expiredThreads⟩
  simp [workerStep, h.worker, h.stateId]

/-- Where no job is executed the thread suspends the weaver. -/
theorem exists_suspended (h : s.Stands .suspending (.dispatched .suspending false) n) :
    ∃ mid, step S s (.worker 0) = some mid ∧
      mid.Stands .suspended (.waitForAvailableJob false) n := by
  have hfinished : s.ExpiredFinished := by simp [ExpiredFinished, h.expiredThreads]
  have htaken : s.takeFirstAvailableJobOrSuspendOrWait S 0 false true true =
      (.null, (s.enterTakeFirst false).setStateP .suspended) := by
    simp [takeFirstAvailableJobOrSuspendOrWait, h.active, h.stateId]
  have hentered : ((s.enterTakeFirst false).setStateP .suspended).Stands .suspended
      (.dispatched .suspending false) n := by
    refine ⟨by simp, ?_, ?_, by simp [h.active], by simp⟩
    · rw [worker_setStateP _ _ rfl, enterTakeFirst_eq]
      exact h.worker
    · rw [createdThreads_setStateP, enterTakeFirst_eq]
      exact Nat.add_pos_left h.createdThreads _
  refine ⟨_, (if_pos h.createdThreads).trans ?_, hentered.moveTo (.waitForAvailableJob false)⟩
  simp [workerStep, h.worker, hfinished, suspendingApplyForWork, htaken]

/-- **One more activation.**  In a suspended weaver the thread waits, is woken and applies again. -/
theorem again {start : Start J P σ} (h : s.Stands .suspended (.waitForAvailableJob false) n)
    (run : Runs S OnlyWakes start s) :
    ∃ last : State J P T σ ε, Runs S OnlyWakes start last ∧
      last.Stands .suspended (.waitForAvailableJob false) (n + 1) := by
  obtain ⟨blocking, hblock, hblocking⟩ : ∃ mid, step S s (.worker 0) = some mid ∧
      mid.Stands .suspended (.blockThread false) n :=
    h.exists_step (by simp [workerStep, h.worker, h.stateId])
  obtain ⟨waiting, hwait, hwaiting⟩ : ∃ mid, step S blocking (.worker 0) = some mid ∧
      mid.Stands .suspended (.waiting false) n :=
    hblocking.exists_step (by simp [workerStep, hblocking.worker])
  have hwoken : waiting.reschedule.Stands .suspended (.woken false) n :=
    ⟨hwaiting.stateId, by simp [reschedule, hwaiting.worker, Worker.wake],
      hwaiting.createdThreads, hwaiting.active, hwaiting.expiredThreads⟩
  obtain ⟨applying, hreturn, happlying⟩ : ∃ mid, step S waiting.reschedule (.worker 0) = some mid ∧
      mid.Stands .suspended (.applyForWork false) n :=
    hwoken.exists_step (by simp [workerStep, hwoken.worker])
  obtain ⟨dispatched, happly, hdispatched⟩ := happlying.exists_dispatched (S := S)
  obtain ⟨sleeping, hsleep, hsleeping⟩ : ∃ mid, step S dispatched (.worker 0) = some mid ∧
      mid.Stands .suspended (.waitForAvailableJob false) (n + 1) :=
    hdispatched.exists_step (by simp [workerStep, hdispatched.worker])
  refine ⟨sleeping, ?_, hsleeping⟩
  have hwake : step S waiting .reschedule = some waiting.reschedule := rfl
  exact (((((run.wake hblock rfl).wake hwait rfl).wake hwake rfl).wake hreturn rfl).wake
    happly rfl).wake hsleep rfl

end State.Stands

/-- A job is enqueued, so that a thread is created, and the weaver is suspended. -/
theorem exists_suspended (S : Setup J P σ ε) (start : Start J P σ) (job : J) (caller : T) :
    ∃ s : State J P T σ ε, Runs S OnlyWakes start s ∧
      s.Stands .suspended (.waitForAvailableJob false) 1 := by
  let enqueued : State J P T σ ε := (init S start).enqueueP S [some job]
  obtain ⟨hid, hcreated, hactive, hexpired, hworker, hcaller⟩ :
      enqueued.stateId = .workingHard ∧ enqueued.createdThreads = 1 ∧
        enqueued.active = 0 ∧ enqueued.expiredThreads = [] ∧
        enqueued.worker = (fun _ => ⟨.started, 0⟩) ∧ enqueued.caller = fun _ => .idle := by
    simp [enqueued, State.enqueueP, State.enqueueJob, State.adjustInventory_eq, State.room, init,
      State.reschedule, Worker.wake]
  have henqueue : step S (init S start) (.enqueue [some job]) = some enqueued := rfl
  let asked := enqueued.setCaller caller (.setState .suspending)
  have hask : step S enqueued (.suspend caller) = some asked := by
    simp [step, beginCall, hcaller, hid, asked]
  let suspending := (asked.setCaller caller .idle).setStateP .suspending
  have hsuspend : step S asked (.proceed caller) = some suspending := by
    simp [step, callerStep, asked, State.setCaller, suspending]
  have hstands : suspending.Stands .suspending .started 0 := by
    refine ⟨by simp [suspending], ?_, ?_, ?_, ?_⟩
    · simp [suspending, State.setStateP_eq, asked, State.setCaller, hid, hworker, Worker.wake]
    · simp [suspending, asked, State.setCaller, hcreated]
    · simp [suspending, asked, State.setCaller, hactive]
    · simp [suspending, asked, State.setCaller, hexpired]
  let applying := State.moveTo 0 (.applyForWork false)
    { suspending with semaphore := suspending.semaphore + 1 }
  have hbegin : step S suspending (.worker 0) = some applying := by
    refine (if_pos hstands.createdThreads).trans ?_
    simp [workerStep, hstands.worker, applying]
  have happlying : applying.Stands .suspending (.applyForWork false) 0 := by
    have hcounted : State.Stands .suspending .started 0
        { suspending with semaphore := suspending.semaphore + 1 } :=
      ⟨hstands.stateId, hstands.worker, hstands.createdThreads, hstands.active,
        hstands.expiredThreads⟩
    exact hcounted.moveTo (.applyForWork false)
  obtain ⟨dispatched, happly, hdispatched⟩ := happlying.exists_dispatched (S := S)
  obtain ⟨suspended, hsleep, hsuspended⟩ := hdispatched.exists_suspended (S := S)
  refine ⟨suspended, ?_, hsuspended⟩
  have hinit : Runs S OnlyWakes start (init S start : State J P T σ ε) := .refl
  have run := hinit.wake henqueue rfl
  exact ((((run.wake hask rfl).wake hsuspend rfl).wake hbegin rfl).wake happly rfl).wake hsleep rfl

theorem exists_stands (S : Setup J P σ ε) (start : Start J P σ) (job : J) (caller : T) (n : ℕ) :
    ∃ s : State J P T σ ε, Runs S OnlyWakes start s ∧
      s.Stands .suspended (.waitForAvailableJob false) (n + 1) := by
  induction n with
  | zero => exact exists_suspended S start job caller
  | succ n ih =>
      obtain ⟨s, run, hs⟩ := ih
      exact hs.again run

/-! ## In an empty queue -/

/-- The only thread is about to apply for work in an empty queue, with `n` applications pending. -/
structure State.Reapplies (n : ℕ) (s : State J P T σ ε) : Prop where
  worker : s.worker 0 = ⟨.applyForWork false, n⟩
  stateId : s.stateId = .workingHard
  assignments : s.assignments = []
  inventory : s.inventory = [0]
  inventoryMax : s.inventoryMax = 1
  expiredThreads : s.expiredThreads = []
  createdThreads : s.createdThreads = 1

omit [DecidableEq J] [DecidableEq P] [DecidableEq T] in
theorem State.workingHardApplyForWork_waits (hid : s.stateId = .workingHard)
    (hempty : s.assignments = []) (hinventory : s.inventory = [0]) (hmax : s.inventoryMax = 1)
    (hexpired : s.expiredThreads = []) :
    s.workingHardApplyForWork S 0 false = s.moveTo 0 (.waiting false) := by
  cases s
  dsimp only at hid hempty hinventory hmax hexpired
  subst hid hempty hinventory hmax hexpired
  simp [workingHardApplyForWork, takeFirstAvailableJobOrSuspendOrWait, enterTakeFirst,
    deleteExpiredThreads, adjustInventory, scan]

/-- **One more activation.**  The thread applies, waits, is woken and applies again. -/
theorem State.Reapplies.again {n : ℕ} {start : Start J P σ} (h : s.Reapplies n)
    (run : Runs S (fun _ _ => True) start s) :
    ∃ next : State J P T σ ε, Runs S (fun _ _ => True) start next ∧ next.Reapplies (n + 1) := by
  let dispatched : State J P T σ ε :=
    { s with worker := Function.update s.worker 0 ⟨.dispatched .workingHard false, n + 1⟩ }
  have happly : step S s (.worker 0) = some dispatched := by
    simp [step, workerStep, h.createdThreads, h.worker, h.stateId, dispatched]
  have hwait : step S dispatched (.worker 0) = some (dispatched.moveTo 0 (.waiting false)) := by
    have hexpired : dispatched.ExpiredFinished := by
      simp [ExpiredFinished, dispatched, h.expiredThreads]
    have hwaits : dispatched.workingHardApplyForWork S 0 false =
        dispatched.moveTo 0 (.waiting false) :=
      workingHardApplyForWork_waits h.stateId h.assignments h.inventory h.inventoryMax
        h.expiredThreads
    rw [← hwaits]
    have hpc : (dispatched.worker 0).pc = .dispatched .workingHard false := by simp [dispatched]
    have hcreated : 0 < dispatched.createdThreads := by simp [dispatched, h.createdThreads]
    simp only [step, if_pos hcreated, workerStep, hpc, if_pos hexpired]
  let woken : State J P T σ ε := (dispatched.moveTo 0 (.waiting false)).reschedule
  have hwake : step S (dispatched.moveTo 0 (.waiting false)) .reschedule = some woken := rfl
  have hwoken : woken.worker 0 = ⟨.woken false, n + 1⟩ := by
    simp [woken, reschedule, moveTo, dispatched, Worker.wake]
  have hreturn : step S woken (.worker 0) = some (woken.moveTo 0 (.applyForWork false)) := by
    have hcreated : 0 < woken.createdThreads := by
      simp [woken, reschedule, moveTo, dispatched, h.createdThreads]
    simp only [step, if_pos hcreated, workerStep, hwoken]
  refine ⟨woken.moveTo 0 (.applyForWork false), ?_, ?_⟩
  · exact (((run.tail trivial happly).tail trivial hwait).tail trivial hwake).tail trivial hreturn
  · refine ⟨?_, h.stateId, h.assignments, h.inventory, h.inventoryMax, h.expiredThreads,
      h.createdThreads⟩
    simp [moveTo, hwoken]

/-- Some run comes to any number of pending activations. -/
theorem exists_reapplies (S : Setup J P σ ε) (start : Start J P σ) (n : ℕ) :
    ∃ s : State J P T σ ε, Runs S (fun _ _ => True) start s ∧ s.Reapplies n := by
  induction n with
  | zero =>
      -- a thread is created when the maximum is raised from zero
      let capped : State J P T σ ε := State.reschedule { init S start with inventoryMax := 0 }
      let raised : State J P T σ ε :=
        (State.createThread { capped with inventoryMax := 1 }).reschedule
      have hcapped : step S (init S start) (.setMaximumNumberOfThreads 0) = some capped := by
        simp [step, unlessDestructed, State.setMaximumNumberOfThreadsP, init, capped]
      have hraised : step S capped (.setMaximumNumberOfThreads 1) = some raised := by
        simp [step, unlessDestructed, State.setMaximumNumberOfThreadsP, State.adjustInventory,
          State.createThread, init, State.reschedule, capped, raised]
      have hstarted : step S raised (.worker 0) = some (State.moveTo 0 (.applyForWork false)
          { raised with semaphore := raised.semaphore + 1 }) := rfl
      refine ⟨_, ((Library.RunWhere.refl.tail trivial hcapped).tail trivial hraised).tail trivial
        hstarted, ?_⟩
      exact ⟨rfl, rfl, rfl, rfl, rfl, rfl, rfl⟩
  | succ n ih =>
      obtain ⟨s, run, hs⟩ := ih
      exact hs.again run

/-- **The activations are not bounded**, in whatever program that has a job and a thread to call the
queue: `enqueue`, `reschedule` and `suspend` leave more applications pending than any given number,
and without a job `setMaximumNumberOfThreads` does. -/
theorem activations_unbounded (S : Setup J P σ ε) (start : Start J P σ) :
    (∀ (_ : J) (_ : T), ¬ ∃ bound, ∀ (s : State J P T σ ε) (thread : ℕ), Runs S OnlyWakes start s →
      (s.worker thread).activations ≤ bound) ∧
    ¬ ∃ bound, ∀ (s : State J P T σ ε) (thread : ℕ), Runs S (fun _ _ => True) start s →
      (s.worker thread).activations ≤ bound := by
  constructor
  · rintro job caller ⟨bound, hbound⟩
    obtain ⟨s, run, hs⟩ := exists_stands S start job caller bound
    have hle := hbound s 0 run
    rw [hs.worker] at hle
    exact absurd hle (Nat.not_succ_le_self bound)
  · rintro ⟨bound, hbound⟩
    obtain ⟨s, run, hs⟩ := exists_reapplies (T := T) S start (bound + 1)
    have hle := hbound s 0 run
    rw [hs.worker] at hle
    exact absurd hle (Nat.not_succ_le_self bound)

/-- One of them is the program of numbered jobs. -/
theorem activations_unbounded_numbered : ¬ ∃ bound,
    ∀ (s : State ℕ Unit Unit (Unit → ℕ) Empty) (thread : ℕ),
      Runs numbered OnlyWakes (.plain fun _ => 0) s → (s.worker thread).activations ≤ bound := by
  rintro ⟨bound, hbound⟩
  obtain ⟨s, run, hs⟩ := exists_stands numbered (.plain fun _ => 0) 0 () bound
  have hle := hbound s 0 run
  rw [hs.worker] at hle
  exact absurd hle (Nat.not_succ_le_self bound)

end ThreadWeaver.Weaver
