import ThreadWeaver.Weaver.Threads

/-!
# Abort requests

`requestAbort_p` goes over the inventory under the weaver mutex and asks the `job` of each
thread to abort.  That field is guarded by a mutex of the thread, so workers that do not need
the weaver mutex go on while the loop runs: they store the job they have been handed, execute
it and clear it again.  `Aborting` splits the call into these visits, `AbortAct` interleaves
them with the other steps, and `takesMutex` says which of those have to wait.

A worker that has been handed a job and has not stored it yet is passed over.  In runs in
which no visit meets such a worker, and no executing worker has left the inventory, every job
in execution has been asked when the call returns (`requestAbort_reaches`).
-/

namespace ThreadWeaver.Weaver

variable {J P T σ ε : Type*}

/-! ## What a step does to a job in execution -/

/-- The worker has been handed the job and `execute` has not returned. -/
def WorkerPc.executes (job : J) (pc : WorkerPc J) : Prop :=
  ∃ phase, pc = .busy job phase ∧ phase ≠ .returned

@[simp] theorem Worker.executes_wake {worker : Worker J} {job : J} :
    worker.wake.pc.executes job ↔ worker.pc.executes job := by
  obtain ⟨pc, activations⟩ := worker
  cases pc <;> simp [Worker.wake, WorkerPc.executes]

namespace State

variable {s next : State J P T σ ε}

theorem WakesFrom.executes (h : next.WakesFrom s) {thread : ℕ} {job : J} :
    (next.worker thread).pc.executes job ↔ (s.worker thread).pc.executes job := by
  rcases h with hworker | hworker
  · rw [hworker]
  · rw [hworker, Worker.executes_wake]

end State

/-- Outside of `takeFirstAvailableJobOrSuspendOrWait` no worker gets a job. -/
theorem WorkerPc.Next.executes {id : StateId} {pc later : WorkerPc J} {job : J}
    (h : WorkerPc.Next id pc later) (hexecutes : later.executes job) : pc.executes job := by
  obtain ⟨phase, hlater, -⟩ := hexecutes
  cases h with
  | work hreturned _ =>
      obtain ⟨rfl, -⟩ : _ = job ∧ _ = phase := by simpa using hlater
      exact ⟨_, rfl, hreturned⟩
  | _ => cases hlater

section Step

variable [DecidableEq J] [DecidableEq P] [DecidableEq T] {S : Setup J P σ ε}
  {s next : State J P T σ ε} {action : Act J P T ε}

omit [DecidableEq J] [DecidableEq P] [DecidableEq T] in
/-- A worker gets a job only from the list, in `takeFirstAvailableJobOrSuspendOrWait`. -/
theorem WorkerTurn.executes {thread other : ℕ} {job : J} (hturn : WorkerTurn S thread s next)
    (hexecutes : (next.worker other).pc.executes job) :
    (s.worker other).pc.executes job ∨ s.assignments ≠ [] ∧
      ∃ wasBusy, (s.worker thread).pc = .dispatched .workingHard wasBusy := by
  obtain ⟨-, worker, hworker⟩ := hturn.worker
  by_cases hother : other = thread
  · subst hother
    cases hturn with
    | pass hnext hpasses =>
        obtain ⟨activations, hupdate⟩ := hpasses.worker
        rw [hupdate, Function.update_self] at hexecutes
        exact .inl (hnext.executes hexecutes)
    | assign hpc _ _ _ hscan =>
        refine .inr ⟨fun hempty => ?_, _, hpc⟩
        rw [hempty] at hscan
        cases hscan
    | again | wait | suspend | drop =>
        obtain ⟨phase, hphase, -⟩ := hexecutes
        rw [State.pc_moveTo] at hphase
        cases hphase
    | expire =>
        obtain ⟨phase, hphase, -⟩ := hexecutes
        rw [State.pc_returnTo] at hphase
        cases hphase
  · rw [hworker, Function.update_of_ne hother] at hexecutes
    exact .inl hexecutes

omit [DecidableEq P] in
private theorem shutDownStep_wakes {caller : T} {rest : ShutDownPc}
    (hstep : shutDownStep caller s rest = some next) :
    next.WakesFrom s ∧ next.assignments = s.assignments := by
  cases rest with
  | acquire | finish =>
      simp only [shutDownStep, Option.ite_none_right_eq_some, Option.some.injEq] at hstep
      rw [← hstep.2]
      exact ⟨.inl rfl, rfl⟩
  | suspend =>
      rw [← Option.some.inj hstep]
      exact ⟨.inl rfl, rfl⟩
  | setSuspending | setShuttingDown | setDestructed =>
      rw [← Option.some.inj hstep]
      exact ⟨State.wakesFrom_setStateP (s.setCaller _ _) _, by simp [State.setCaller]⟩
  | reschedule =>
      rw [← Option.some.inj hstep]
      exact ⟨.inr rfl, rfl⟩
  | collect =>
      simp only [shutDownStep] at hstep
      split at hstep <;> exact Option.some.inj hstep ▸ ⟨.inl rfl, rfl⟩
  | join thread =>
      simp only [shutDownStep] at hstep
      split at hstep
      · exact Option.some.inj hstep ▸ ⟨.inl rfl, rfl⟩
      · exact Option.some.inj hstep ▸ ⟨.inr rfl, rfl⟩

omit [DecidableEq P] in
/-- A step that is not a worker's wakes workers at most, and only `enqueue` adds jobs to the
list. -/
theorem Turn.wakes (hturn : Turn S s action next) :
    ((∀ thread, action ≠ .worker thread) → next.WakesFrom s) ∧
      ((∀ jobs, action ≠ .enqueue jobs) → next.assignments.Sublist s.assignments) := by
  cases hturn with
  | enqueue jobs _ =>
      obtain ⟨k, hcall⟩ := s.queueCall_enqueueP S jobs
      exact ⟨fun _ => hcall.wakes, fun h => absurd rfl (h jobs)⟩
  | call hcall hsublist _ => exact ⟨fun _ => hcall.wakes, fun _ => hsublist⟩
  | resize cap _ =>
      obtain ⟨k, hcall, hlist, -⟩ := s.queueCall_setMaximumNumberOfThreadsP cap
      exact ⟨fun _ => hcall.wakes, fun _ => hlist ▸ .refl _⟩
  | begin _ hbegins => exact ⟨fun _ => .inl hbegins.worker, fun _ => hbegins.assignments ▸ .refl _⟩
  | setState _ =>
      exact ⟨fun _ => State.wakesFrom_setStateP (s.setCaller _ _) _,
        fun _ => by simp [State.setCaller]⟩
  | reschedule _ => exact ⟨fun _ => .inr rfl, fun _ => .refl _⟩
  | finish _ _ => exact ⟨fun _ => .inl rfl, fun _ => .refl _⟩
  | shutDown _ hstep =>
      obtain ⟨hwakes, hlist⟩ := shutDownStep_wakes hstep
      exact ⟨fun _ => hwakes, fun _ => hlist ▸ .refl _⟩
  | worker _ hturn => exact ⟨fun h => absurd rfl (h _), fun _ => hturn.sublist⟩

/-- A job that a worker executes after a step has been in execution there, or was taken from the
list by the worker's step. -/
theorem step_executes {thread : ℕ} {job : J} (hstep : step S s action = some next)
    (hexecutes : (next.worker thread).pc.executes job) :
    (s.worker thread).pc.executes job ∨ s.assignments ≠ [] ∧
      ∃ other wasBusy, action = .worker other ∧
        (s.worker other).pc = .dispatched .workingHard wasBusy := by
  have hturn := step_turn hstep
  by_cases hworker : ∃ other, action = .worker other
  · obtain ⟨other, rfl⟩ := hworker
    cases hturn with
    | worker _ hturn =>
        refine (hturn.executes hexecutes).imp_right fun h => ⟨h.1, ?_⟩
        obtain ⟨wasBusy, hpc⟩ := h.2
        exact ⟨other, wasBusy, rfl, hpc⟩
    | call hcall _ _ => exact .inl (hcall.wakes.executes.mp hexecutes)
    | begin _ hbegins =>
        rw [hbegins.worker] at hexecutes
        exact .inl hexecutes
  · have hwakes := hturn.wakes.1 fun other hother => hworker ⟨other, hother⟩
    exact .inl (hwakes.executes.mp hexecutes)

end Step

/-! ## What a step does to the requests -/

namespace State

variable (s : State J P T σ ε)

@[simp] theorem shouldAbort_adjustInventory (n : ℕ) :
    (s.adjustInventory n).shouldAbort = s.shouldAbort := by
  rw [adjustInventory_eq]

@[simp] theorem shouldAbort_setStateP (id : StateId) :
    (s.setStateP id).shouldAbort = s.shouldAbort := by
  rw [setStateP_eq]
  split <;> rfl

@[simp] theorem shouldAbort_enterTakeFirst (wasBusy : Bool) :
    (s.enterTakeFirst wasBusy).shouldAbort = s.shouldAbort := by
  rw [enterTakeFirst_eq]

@[simp] theorem shouldAbort_setMaximumNumberOfThreadsP (cap : ℕ) :
    (s.setMaximumNumberOfThreadsP cap).shouldAbort = s.shouldAbort := by
  unfold setMaximumNumberOfThreadsP
  dsimp only
  split
  · exact shouldAbort_adjustInventory { s with inventoryMax := cap } 1
  · rfl

section Queue

variable [DecidableEq J] (S : Setup J P σ ε)

@[simp] theorem shouldAbort_enqueueP (jobs : List (Option J)) :
    (s.enqueueP S jobs).shouldAbort = s.shouldAbort := by
  unfold enqueueP
  generalize jobs.length = n
  induction jobs generalizing s with
  | nil => rfl
  | cons head rest ih =>
      refine (ih _).trans ?_
      cases head with
      | none => rfl
      | some job => exact shouldAbort_adjustInventory s n

@[simp] theorem shouldAbort_dequeueP (job : J) :
    (s.dequeueP S job).2.shouldAbort = s.shouldAbort :=
  dequeueP_keeps S (I := fun next => next.shouldAbort = s.shouldAbort) (fun _ _ h => h) job rfl

@[simp] theorem shouldAbort_dequeueAllP : (s.dequeueAllP S).shouldAbort = s.shouldAbort :=
  dequeueLoop_keeps S (I := fun next => next.shouldAbort = s.shouldAbort) (fun _ _ h => h) _ _ rfl

omit [DecidableEq J] in
@[simp] theorem shouldAbort_takeFirstAvailableJobOrSuspendOrWait (thread : ℕ)
    (threadWasBusy suspendIfInactive justReturning : Bool) :
    (s.takeFirstAvailableJobOrSuspendOrWait S thread threadWasBusy suspendIfInactive
      justReturning).2.shouldAbort = s.shouldAbort := by
  have henter := s.shouldAbort_enterTakeFirst threadWasBusy
  unfold takeFirstAvailableJobOrSuspendOrWait
  dsimp only
  generalize s.enterTakeFirst threadWasBusy = entered at henter
  split
  · rw [shouldAbort_setStateP, henter]
  · split
    · exact henter
    · split
      · exact henter
      · split <;> exact henter

end Queue

end State

section Step

variable [DecidableEq J] [DecidableEq P] [DecidableEq T] {S : Setup J P σ ε}
  {s next : State J P T σ ε} {action : Act J P T ε}

omit [DecidableEq P] [DecidableEq T] in
theorem workerStep_shouldAbort {thread : ℕ} (hstep : workerStep S thread s = some next) :
    next.shouldAbort = s.shouldAbort := by
  unfold workerStep at hstep
  split at hstep
  case h_3 wasBusy _ =>
      -- the working weaver
      rw [Option.ite_none_right_eq_some] at hstep
      rw [← Option.some.inj hstep.2]
      have htake := s.shouldAbort_takeFirstAvailableJobOrSuspendOrWait S thread wasBusy false false
      unfold State.workingHardApplyForWork
      dsimp only
      split <;> exact htake
  case h_4 wasBusy _ =>
      -- the suspending weaver
      rw [Option.ite_none_right_eq_some] at hstep
      rw [← Option.some.inj hstep.2]
      have htake := s.shouldAbort_takeFirstAvailableJobOrSuspendOrWait S thread wasBusy true true
      unfold State.suspendingApplyForWork
      dsimp only
      split <;> exact htake
  case h_17 =>
      split at hstep <;> exact Option.some.inj hstep ▸ rfl
  all_goals first
    | exact Option.some.inj hstep ▸ rfl
    | cases hstep

omit [DecidableEq P] in
private theorem callerStep_shouldAbort {caller : T} (hstep : callerStep caller s = some next) :
    next.shouldAbort = s.shouldAbort := by
  unfold callerStep at hstep
  split at hstep
  · cases hstep
  · rw [← Option.some.inj hstep]
    simp [State.setCaller]
  · exact Option.some.inj hstep ▸ rfl
  · rw [Option.ite_none_right_eq_some] at hstep
    exact Option.some.inj hstep.2 ▸ rfl
  · rename_i rest _
    cases rest with
    | acquire | finish =>
        simp only [shutDownStep, Option.ite_none_right_eq_some, Option.some.injEq] at hstep
        rw [← hstep.2]
        rfl
    | suspend | reschedule => exact Option.some.inj hstep ▸ rfl
    | setSuspending | setShuttingDown | setDestructed =>
        rw [← Option.some.inj hstep]
        simp [State.setCaller]
    | collect | join _ =>
        simp only [shutDownStep] at hstep
        split at hstep <;> exact Option.some.inj hstep ▸ rfl

/-- A job that has been asked to abort stays so. -/
theorem step_shouldAbort {job : J} (hstep : step S s action = some next)
    (hasked : s.shouldAbort job = true) : next.shouldAbort job = true := by
  have hcalls : ∀ f : State J P T σ ε → State J P T σ ε,
      ((f s).shouldAbort job = true) → (unlessDestructed f s).shouldAbort job = true := by
    intro f hf
    unfold unlessDestructed
    split
    · exact hasked
    · exact hf
  cases action with
  | enqueue jobs => exact Option.some.inj hstep ▸ hcalls _ (by simpa using hasked)
  | dequeue other =>
      rw [← Option.some.inj hstep, State.dequeue_snd]
      exact hcalls _ (by simpa using hasked)
  | dequeueAll => exact Option.some.inj hstep ▸ hcalls _ (by simpa using hasked)
  | setMaximumNumberOfThreads cap =>
      exact Option.some.inj hstep ▸ hcalls _ (by simpa using hasked)
  | requestAbort =>
      exact Option.some.inj hstep ▸ hcalls _ (by simp [State.requestAbortP, hasked])
  | reschedule => exact Option.some.inj hstep ▸ hasked
  | suspend caller | resume caller | finish caller | shutDown caller =>
      simp only [step, beginCall, Option.ite_none_right_eq_some, Option.some.injEq] at hstep
      exact hstep.2 ▸ hasked
  | configure caller ops =>
      obtain ⟨begun, hbegun, rfl⟩ := Option.map_eq_some_iff.mp hstep
      simp only [beginCall, Option.ite_none_right_eq_some, Option.some.injEq] at hbegun
      exact hbegun.2 ▸ hasked
  | configureFromJob thread ops =>
      simp only [step, Option.ite_none_right_eq_some, Option.some.injEq] at hstep
      exact hstep.2 ▸ hasked
  | proceed caller => rwa [callerStep_shouldAbort hstep]
  | timeout caller =>
      simp only [step, Option.ite_none_right_eq_some, Option.some.injEq] at hstep
      exact hstep.2 ▸ hasked
  | worker thread =>
      simp only [step, Option.ite_none_right_eq_some] at hstep
      rwa [workerStep_shouldAbort hstep.2]

end Step

/-! ## The call in progress -/

/-- The rest of `shutDown_p` begins with a section under the weaver mutex. -/
def ShutDownPc.takesMutex : ShutDownPc → Bool
  | .finish | .setSuspending | .setShuttingDown | .collect | .setDestructed => true
  | .acquire | .suspend | .reschedule | .join _ => false

/-- The rest of the call begins with a section under the weaver mutex. -/
def CallerPc.takesMutex : CallerPc → Bool
  | setState _ | finish => true
  | shutDown rest => rest.takesMutex
  | idle | reschedule => false

/-- The next step of the worker is a section under the weaver mutex; a wait returns with it. -/
def WorkerPc.takesMutex : WorkerPc J → Bool
  | dispatched .workingHard _ | dispatched .suspending _ | blockThread _ | woken _ => true
  | _ => false

/-- The step takes the weaver mutex. -/
def State.takesMutex (s : State J P T σ ε) : Act J P T ε → Bool
  | .enqueue _ | .dequeue _ | .dequeueAll | .setMaximumNumberOfThreads _ | .requestAbort
  | .finish _ | .timeout _ => true
  | .reschedule | .suspend _ | .resume _ | .shutDown _ | .configure _ _
  | .configureFromJob _ _ => false
  | .proceed caller => (s.caller caller).takesMutex
  | .worker thread => (s.worker thread).pc.takesMutex

/-- The weaver, and the threads that `requestAbort_p` has still to visit while a thread is in
it and holds the weaver mutex. -/
structure Aborting (J P T σ ε : Type*) where
  weaver : State J P T σ ε
  visiting : Option (List ℕ)

/-- What threads do while `requestAbort` is taken apart. -/
inductive AbortAct (J P T ε : Type*)
  /-- `requestAbort` takes the weaver mutex -/
  | begin
  /-- `Thread::requestAbort` of the next thread of the inventory -/
  | visit
  /-- the call returns -/
  | return
  | other (action : Act J P T ε)
  deriving DecidableEq, Repr

/-- The threads that a call of `requestAbort` visits: none in `DestructedState`. -/
def State.visited (s : State J P T σ ε) : List ℕ :=
  if s.stateId = .destructed then [] else s.inventory

/-- `Thread::requestAbort`. -/
def State.visit [DecidableEq J] (thread : ℕ) (s : State J P T σ ε) : State J P T σ ε :=
  match (s.worker thread).pc.currentJob? with
  | some job => { s with shouldAbort := Function.update s.shouldAbort job true }
  | none => s

section Calls

variable [DecidableEq J] [DecidableEq P] [DecidableEq T] (S : Setup J P σ ε)

/-- One step; while `requestAbort_p` holds the weaver mutex, the steps that take it wait. -/
def abortStep (a : Aborting J P T σ ε) : AbortAct J P T ε → Option (Aborting J P T σ ε)
  | .begin =>
      match a.visiting with
      | none => some { a with visiting := some a.weaver.visited }
      | some _ => none
  | .visit =>
      match a.visiting with
      | some (thread :: rest) => some ⟨a.weaver.visit thread, some rest⟩
      | some [] | none => none
  | .return =>
      match a.visiting with
      | some [] => some { a with visiting := none }
      | some (_ :: _) | none => none
  | .other action =>
      if a.visiting.isSome ∧ a.weaver.takesMutex action then none
      else (step S a.weaver action).map fun next => { a with weaver := next }

/-- The runs of the weaver in which the visits of `requestAbort` are steps of their own. -/
abbrev AbortRuns (ok : Aborting J P T σ ε → AbortAct J P T ε → Prop) (start : Start J P σ)
    (a : Aborting J P T σ ε) : Prop :=
  Library.RunWhere (abortStep S) ok ⟨init S start, none⟩ a

omit [DecidableEq P] [DecidableEq T] in
/-- The visits of a call, with nothing in between, are `requestAbort_p`. -/
theorem foldl_visit_eq (s : State J P T σ ε) :
    s.inventory.foldl (fun s thread => s.visit thread) s = s.requestAbortP := by
  have hfold : ∀ (threads : List ℕ) (s : State J P T σ ε),
      threads.foldl (fun s thread => s.visit thread) s = { s with
        shouldAbort := fun job => s.shouldAbort job ||
          threads.any fun thread => decide ((s.worker thread).pc.currentJob? = some job) } := by
    intro threads
    induction threads with
    | nil => simp
    | cons thread rest ih =>
        intro s
        rw [List.foldl_cons, ih]
        unfold State.visit
        cases hjob : (s.worker thread).pc.currentJob? with
        | none => simp [hjob]
        | some held =>
            simp only [hjob, List.any_cons, State.mk.injEq, true_and, and_true]
            funext job
            by_cases heq : job = held
            · simp [heq]
            · simp [Function.update_of_ne heq, Ne.symm heq]
  exact hfold s.inventory s

/-! ## No request is missed -/

/-- When the call begins, the workers with a job in execution are in the inventory, and when a
thread is visited, it has stored the job it has been handed. -/
def Catches (a : Aborting J P T σ ε) : AbortAct J P T ε → Prop
  | .begin => ∀ thread job, (a.weaver.worker thread).pc.executes job → thread ∈ a.weaver.visited
  | .visit => ∀ thread rest job, a.visiting = some (thread :: rest) →
      (a.weaver.worker thread).pc ≠ .busy job .assigned
  | .return | .other _ => True

/-- Nothing is enqueued. -/
def NothingEnqueued (_ : Aborting J P T σ ε) (action : AbortAct J P T ε) : Prop :=
  ∀ jobs, action ≠ .other (.enqueue jobs)

/-- Every job in execution has been asked to abort. -/
def Aborting.AllAsked (a : Aborting J P T σ ε) : Prop :=
  ∀ thread job, (a.weaver.worker thread).pc.executes job → a.weaver.shouldAbort job = true

/-- While the call goes on, a job in execution has been asked to abort or its thread is still to
be visited. -/
def Aborting.Covered (a : Aborting J P T σ ε) : Prop :=
  ∀ rest, a.visiting = some rest → ∀ thread job, (a.weaver.worker thread).pc.executes job →
    thread ∈ rest ∨ a.weaver.shouldAbort job = true

variable {S} {a next : Aborting J P T σ ε}

omit [DecidableEq P] [DecidableEq T] in
/-- A visit moves no thread, and takes no request back. -/
theorem State.visit_eq (s : State J P T σ ε) (thread : ℕ) :
    (s.visit thread).worker = s.worker ∧ (s.visit thread).assignments = s.assignments ∧
      ∀ job, s.shouldAbort job = true → (s.visit thread).shouldAbort job = true := by
  unfold State.visit
  split
  · rename_i held _
    refine ⟨rfl, rfl, fun job hasked => ?_⟩
    by_cases heq : job = held
    · simp [heq]
    · simpa [Function.update_of_ne heq] using hasked
  · exact ⟨rfl, rfl, fun _ => id⟩

omit [DecidableEq P] [DecidableEq T] in
/-- A thread that has stored its job is asked when it is visited. -/
theorem State.visit_asks {s : State J P T σ ε} {thread : ℕ} {job : J}
    (hstored : (s.worker thread).pc ≠ .busy job .assigned)
    (hexecutes : (s.worker thread).pc.executes job) :
    (s.visit thread).shouldAbort job = true := by
  obtain ⟨phase, hphase, -⟩ := hexecutes
  rw [hphase] at hstored
  have hassigned : phase ≠ .assigned := by
    rintro rfl
    exact hstored rfl
  simp [State.visit, hphase, WorkerPc.currentJob?, hassigned]

theorem Aborting.Covered.step (h : a.Covered) {action : AbortAct J P T ε}
    (hcatches : Catches a action) (hstep : abortStep S a action = some next) : next.Covered := by
  obtain ⟨s, visiting⟩ := a
  intro left hleft thread job hexecutes
  cases action with
  | begin =>
      cases visiting with
      | some rest => cases hstep
      | none =>
          obtain rfl := Option.some.inj hstep
          obtain rfl := Option.some.inj hleft
          exact .inl (hcatches thread job hexecutes)
  | visit =>
      rcases visiting with _ | ⟨_ | ⟨head, rest⟩⟩
      · cases hstep
      · cases hstep
      · obtain rfl := Option.some.inj hstep
        obtain rfl := Option.some.inj hleft
        obtain ⟨hworker, -, hkept⟩ := s.visit_eq head
        simp only [hworker] at hexecutes
        rcases h _ rfl thread job hexecutes with hmem | hasked
        · rcases List.mem_cons.mp hmem with rfl | hrest
          · exact .inr (State.visit_asks (hcatches thread _ job rfl) hexecutes)
          · exact .inl hrest
        · exact .inr (hkept job hasked)
  | «return» =>
      rcases visiting with _ | ⟨_ | ⟨head, rest⟩⟩
      · cases hstep
      · obtain rfl := Option.some.inj hstep
        cases hleft
      · cases hstep
  | other action =>
      simp only [abortStep] at hstep
      split at hstep
      · cases hstep
      · rename_i hmutex
        obtain ⟨after, htaken, rfl⟩ := Option.map_eq_some_iff.mp hstep
        rcases step_executes htaken hexecutes with hbefore | ⟨-, other, wasBusy, rfl, hpc⟩
        · exact (h left hleft thread job hbefore).imp_right (step_shouldAbort htaken)
        · -- no job is handed out under the mutex of the call
          refine absurd ⟨Option.isSome_iff_exists.mpr ⟨left, hleft⟩, ?_⟩ hmutex
          show (s.worker other).pc.takesMutex = true
          rw [hpc]
          rfl

/-- **When the call returns, every job in execution has been asked.** -/
theorem Aborting.Covered.allAsked (h : a.Covered) (hstep : abortStep S a .return = some next) :
    next.AllAsked := by
  obtain ⟨s, visiting⟩ := a
  rcases visiting with _ | ⟨_ | ⟨head, rest⟩⟩
  · cases hstep
  · obtain rfl := Option.some.inj hstep
    intro thread job hexecutes
    exact (h [] rfl thread job hexecutes).resolve_left List.not_mem_nil
  · cases hstep

/-- The list stays empty when nothing is enqueued. -/
theorem abortStep_assignments {action : AbortAct J P T ε}
    (hempty : a.weaver.assignments = []) (hnothing : NothingEnqueued a action)
    (hstep : abortStep S a action = some next) : next.weaver.assignments = [] := by
  obtain ⟨s, visiting⟩ := a
  cases action with
  | begin =>
      rcases visiting with _ | rest
      · obtain rfl := Option.some.inj hstep
        exact hempty
      · cases hstep
  | «return» =>
      rcases visiting with _ | ⟨_ | ⟨head, rest⟩⟩
      · cases hstep
      · obtain rfl := Option.some.inj hstep
        exact hempty
      · cases hstep
  | visit =>
      rcases visiting with _ | ⟨_ | ⟨head, rest⟩⟩
      · cases hstep
      · cases hstep
      · obtain rfl := Option.some.inj hstep
        exact (s.visit_eq head).2.1.trans hempty
  | other action =>
      simp only [abortStep] at hstep
      split at hstep
      · cases hstep
      · obtain ⟨after, htaken, rfl⟩ := Option.map_eq_some_iff.mp hstep
        have hsublist := (step_turn htaken).wakes.2 fun jobs heq => hnothing jobs (heq ▸ rfl)
        rw [show s.assignments = [] from hempty] at hsublist
        exact List.sublist_nil.mp hsublist

/-- With an empty list nobody gets a job, so those in execution are jobs that have been asked. -/
theorem Aborting.AllAsked.step (h : a.AllAsked) (hempty : a.weaver.assignments = [])
    {action : AbortAct J P T ε} (hstep : abortStep S a action = some next) : next.AllAsked := by
  obtain ⟨s, visiting⟩ := a
  cases action with
  | begin =>
      rcases visiting with _ | rest
      · obtain rfl := Option.some.inj hstep
        exact h
      · cases hstep
  | «return» =>
      rcases visiting with _ | ⟨_ | ⟨head, rest⟩⟩
      · cases hstep
      · obtain rfl := Option.some.inj hstep
        exact h
      · cases hstep
  | visit =>
      rcases visiting with _ | ⟨_ | ⟨head, rest⟩⟩
      · cases hstep
      · cases hstep
      · obtain rfl := Option.some.inj hstep
        obtain ⟨hworker, -, hasked⟩ := s.visit_eq head
        intro thread job hexecutes
        simp only [hworker] at hexecutes
        exact hasked job (h thread job hexecutes)
  | other action =>
      simp only [abortStep] at hstep
      split at hstep
      · cases hstep
      · obtain ⟨after, htaken, rfl⟩ := Option.map_eq_some_iff.mp hstep
        intro thread job hexecutes
        rcases step_executes htaken hexecutes with hbefore | ⟨hlist, -⟩
        · exact step_shouldAbort htaken (h thread job hbefore)
        · exact absurd hempty hlist

/-- Nothing is enqueued and every step of a call meets its condition. -/
def CatchesOnly (a : Aborting J P T σ ε) (action : AbortAct J P T ε) : Prop :=
  Catches a action ∧ NothingEnqueued a action

theorem runWhere_covered {ok : Aborting J P T σ ε → AbortAct J P T ε → Prop}
    (hok : ∀ a action, ok a action → Catches a action) {first last : Aborting J P T σ ε}
    (hrun : Library.RunWhere (abortStep S) ok first last) (h : first.Covered) : last.Covered :=
  hrun.invariant h fun a action _ hcovered hmeets hstep => hcovered.step (hok a action hmeets) hstep

/-- Dequeueing all jobs empties the list, and no call of `requestAbort` is in progress. -/
theorem abortStep_dequeueAll (hid : a.weaver.stateId ≠ .destructed)
    (hstep : abortStep S a (.other .dequeueAll) = some next) :
    next.weaver.assignments = [] ∧ next.visiting = none := by
  obtain ⟨s, visiting⟩ := a
  simp only [abortStep] at hstep
  split at hstep
  · cases hstep
  · rename_i hmutex
    obtain ⟨after, htaken, rfl⟩ := Option.map_eq_some_iff.mp hstep
    obtain rfl := Option.some.inj htaken
    refine ⟨?_, ?_⟩
    · simp only [unlessDestructed, if_neg hid]
      rfl
    · simpa [State.takesMutex] using hmutex

/-- **No abort request is missed** in runs whose calls of `requestAbort` find the workers in
execution in the inventory, with their job stored.  When a call returns, every job in execution has
been asked: no job is handed out meanwhile, so these are jobs that were counted as active when the
call began.  After all jobs have been dequeued, a call with nothing enqueued since reaches every job
that still executes. -/
theorem requestAbort_reaches (S : Setup J P σ ε) (start : Start J P σ) :
    (∀ a next : Aborting J P T σ ε, AbortRuns S Catches start a →
      abortStep S a .return = some next → next.AllAsked) ∧
    ∀ a emptied called returned last : Aborting J P T σ ε,
      AbortRuns S (fun _ _ => True) start a → a.weaver.stateId ≠ .destructed →
      abortStep S a (.other .dequeueAll) = some emptied →
      Library.RunWhere (abortStep S) CatchesOnly emptied called →
      abortStep S called .return = some returned →
      Library.RunWhere (abortStep S) NothingEnqueued returned last → last.AllAsked := by
  refine ⟨fun a next hrun hreturn => ?_, ?_⟩
  · have hcovered := runWhere_covered (fun _ _ h => h) hrun fun rest hrest => by cases hrest
    exact hcovered.allAsked hreturn
  · intro a emptied called returned last _ hid hdequeue hcall hreturn hrest
    obtain ⟨hempty, hnone⟩ := abortStep_dequeueAll hid hdequeue
    have hcovered := runWhere_covered (fun _ _ h => h.1) hcall fun rest hrest => by
      rw [hnone] at hrest
      cases hrest
    have hlist : called.weaver.assignments = [] :=
      hcall.invariant hempty fun a action next h hok hstep => abortStep_assignments h hok.2 hstep
    have hlist' : returned.weaver.assignments = [] :=
      abortStep_assignments hlist (fun _ => by simp) hreturn
    refine (hrest.invariant (I := fun a => a.AllAsked ∧ a.weaver.assignments = [])
      ⟨hcovered.allAsked hreturn, hlist'⟩ fun a action next h hok hstep => ?_).1
    exact ⟨h.1.step h.2 hstep, abortStep_assignments h.2 hok hstep⟩

end Calls

/-- The actions that hand job 0 to a thread. -/
def handOut : List (AbortAct ℕ Unit Unit Empty) :=
  [.other (.enqueue [some 0]), .other (.worker 0), .other (.worker 0), .other (.worker 0)]

/-- A run to a state in which the thread has stored the job and the other thread of the inventory
has not started. -/
private theorem exists_stored : ∃ s : State ℕ Unit Unit (Unit → ℕ) Empty,
    AbortRuns numbered Catches (.plain fun _ => 0) ⟨s, none⟩ ∧
      (s.worker 0).pc = .busy 0 .executing ∧ (∀ thread, (s.worker (thread + 1)).pc = .started) ∧
      s.visited = [0, 1] := by
  let isOther : Aborting ℕ Unit Unit (Unit → ℕ) Empty → AbortAct ℕ Unit Unit Empty → Prop :=
    fun _ action => action ≠ .begin ∧ action ≠ .visit
  let stored := Library.execute (abortStep numbered) isOther
    ⟨init numbered (.plain fun _ => 0), none⟩ (handOut ++ [.other (.worker 0)])
  have hsome : stored.isSome = true := by decide
  refine ⟨(stored.get hsome).weaver, ?_, rfl, fun _ => rfl, rfl⟩
  have hrun : Library.RunWhere (abortStep numbered) isOther
      ⟨init numbered (.plain fun _ => 0), none⟩ (stored.get hsome) :=
    Library.runWhere_of_execute (Option.some_get hsome).symm
  refine hrun.mono fun a action hother => ?_
  cases action with
  | begin => exact absurd rfl hother.1
  | visit => exact absurd rfl hother.2
  | «return» | other _ => trivial

/-- A worker that has stored its job is asked while it executes it. -/
theorem requestAbort_reaches_executing :
    ∃ a next : Aborting ℕ Unit Unit (Unit → ℕ) Empty,
      AbortRuns numbered Catches (.plain fun _ => 0) a ∧
        abortStep numbered a .return = some next ∧ next.AllAsked ∧
        (next.weaver.worker 0).pc = .busy 0 .executing := by
  obtain ⟨s, hrun, hpc, hstarted, hvisited⟩ := exists_stored
  have hbegin : Catches (⟨s, none⟩ : Aborting ℕ Unit Unit (Unit → ℕ) Empty)
      (.begin : AbortAct ℕ Unit Unit Empty) := by
    rintro (_ | thread) job ⟨phase, hphase, -⟩
    · simp [hvisited]
    · rw [hstarted] at hphase
      cases hphase
  have hbegun : abortStep numbered (⟨s, none⟩ : Aborting ℕ Unit Unit (Unit → ℕ) Empty) .begin =
      some ⟨s, some [0, 1]⟩ := by
    simp [abortStep, hvisited]
  have hworker := (s.visit_eq 0).1
  have hworker' := ((s.visit 0).visit_eq 1).1
  have hfirst : abortStep numbered (⟨s, some [0, 1]⟩ : Aborting ℕ Unit Unit (Unit → ℕ) Empty)
      .visit = some ⟨s.visit 0, some [1]⟩ := rfl
  have hsecond : abortStep numbered
      (⟨s.visit 0, some [1]⟩ : Aborting ℕ Unit Unit (Unit → ℕ) Empty) .visit =
        some ⟨(s.visit 0).visit 1, some []⟩ := rfl
  have hcall : AbortRuns numbered Catches (.plain fun _ => 0)
      ⟨(s.visit 0).visit 1, some []⟩ := by
    refine ((hrun.tail hbegin hbegun).tail ?_ hfirst).tail ?_ hsecond
    · rintro thread rest job hvisiting
      obtain ⟨rfl, -⟩ := List.cons_eq_cons.mp (Option.some.inj hvisiting)
      rw [hpc]
      simp
    · rintro thread rest job hvisiting
      obtain ⟨rfl, -⟩ := List.cons_eq_cons.mp (Option.some.inj hvisiting)
      rw [hworker, hstarted 0]
      simp
  refine ⟨_, ⟨(s.visit 0).visit 1, none⟩, hcall, rfl,
    (requestAbort_reaches numbered (.plain fun _ => 0)).1 _ _ hcall rfl, ?_⟩
  show (((s.visit 0).visit 1).worker 0).pc = _
  rw [hworker', hworker, hpc]

/-- A worker that has been handed a job and has not stored it: the call passes it over. -/
theorem not_requestAbort_reaches :
    ¬ ∀ a next : Aborting ℕ Unit Unit (Unit → ℕ) Empty,
      AbortRuns numbered (fun _ _ => True) (.plain fun _ => 0) a →
        abortStep numbered a .return = some next → next.AllAsked := by
  intro hall
  obtain ⟨a, hrun, hvisiting, hpc, hasked⟩ : ∃ a : Aborting ℕ Unit Unit (Unit → ℕ) Empty,
      AbortRuns numbered (fun _ _ => True) (.plain fun _ => 0) a ∧ a.visiting = some [] ∧
        (a.weaver.worker 0).pc = .busy 0 .assigned ∧ a.weaver.shouldAbort 0 = false :=
    Library.exists_runWhere _ (handOut ++ [.begin, .visit, .visit]) (by decide)
  have hall := hall a { a with visiting := none } hrun (by simp [abortStep, hvisiting]) 0 0
    ⟨.assigned, hpc, by decide⟩
  rw [show a.weaver.shouldAbort 0 = false from hasked] at hall
  cases hall

end ThreadWeaver.Weaver
