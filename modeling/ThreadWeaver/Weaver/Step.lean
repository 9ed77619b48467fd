import ThreadWeaver.Weaver.State
import Mathlib.Logic.Function.Iterate

/-!
# The steps of the weaver

The functions of `weaver.cpp`, `weaver_p.cpp`, `thread.cpp` and the state objects, each as
a function on the state under the name it has in the source, and the step relation that
interleaves them.
-/

namespace ThreadWeaver.Weaver

variable {J P T σ ε : Type*}

/-! ## Threads -/

/-- `QWaitCondition::wakeAll` on `jobAvailable` as one worker sees it. -/
def Worker.wake (worker : Worker J) : Worker J :=
  match worker.pc with
  | .waiting wasBusy => { worker with pc := .woken wasBusy }
  | _ => worker

namespace State

/-- `Weaver::reschedule`. -/
def reschedule (s : State J P T σ ε) : State J P T σ ε :=
  { s with worker := fun thread => (s.worker thread).wake }

/-- Move a worker to the position `pc`. -/
def moveTo (thread : ℕ) (pc : WorkerPc J) (s : State J P T σ ε) : State J P T σ ε :=
  { s with worker := Function.update s.worker thread { s.worker thread with pc := pc } }

/-- Move a worker to `pc` as all its activations of `applyForWork` return. -/
def returnTo (thread : ℕ) (pc : WorkerPc J) (s : State J P T σ ε) : State J P T σ ε :=
  { s with worker := Function.update s.worker thread ⟨pc, 0⟩ }

@[simp] theorem pc_moveTo (thread : ℕ) (pc : WorkerPc J) (s : State J P T σ ε) :
    ((s.moveTo thread pc).worker thread).pc = pc := by
  simp [moveTo]

@[simp] theorem pc_returnTo (thread : ℕ) (pc : WorkerPc J) (s : State J P T σ ε) :
    ((s.returnTo thread pc).worker thread).pc = pc := by
  simp [returnTo]

/-- Record an event. -/
def record (event : Event J P ε) (s : State J P T σ ε) : State J P T σ ε :=
  { s with log := s.log ++ [event] }

/-- The creation of one thread in `adjustInventory`. -/
def createThread (s : State J P T σ ε) : State J P T σ ε :=
  { s with
    inventory := s.inventory ++ [s.createdThreads]
    createdThreads := s.createdThreads + 1 }

/-- `Weaver::adjustInventory`. -/
def adjustInventory (numberOfNewJobs : ℕ) (s : State J P T σ ε) : State J P T σ ε :=
  createThread^[min (s.inventoryMax - s.inventory.length) numberOfNewJobs] s

/-- All expired threads have finished, so that `deleteExpiredThreads` does not block. -/
def ExpiredFinished (s : State J P T σ ε) : Prop :=
  ∀ thread ∈ s.expiredThreads, (s.worker thread).pc = .exited

instance [DecidableEq J] (s : State J P T σ ε) : Decidable s.ExpiredFinished :=
  inferInstanceAs (Decidable (∀ _ ∈ _, _))

/-- `Weaver_Private::deleteExpiredThreads`. -/
def deleteExpiredThreads (s : State J P T σ ε) : State J P T σ ε :=
  { s with
    expiredThreads := []
    log := s.log ++ s.expiredThreads.map Event.deleted }

/-- `Weaver::adjustActiveThreadCount`. -/
def adjustActiveThreadCount (diff : ℤ) (s : State J P T σ ε) : State J P T σ ε :=
  { s with
    active := s.active + diff
    log := if s.assignments.isEmpty ∧ s.active + diff = 0 then s.log ++ [.finished] else s.log }

/-- `Weaver::isIdle_p`. -/
def isIdleP (s : State J P T σ ε) : Bool :=
  s.assignments.isEmpty && s.active == 0

/-! ## States -/

/-- `State::activated` of the state object `id`: two of them wake the workers. -/
def activated (id : StateId) (s : State J P T σ ε) : State J P T σ ε :=
  match id with
  | .workingHard | .suspending => s.reschedule
  | _ => s

/-- `Weaver::setState_p`. -/
def setStateP (id : StateId) (s : State J P T σ ε) : State J P T σ ε :=
  if s.stateId = id then s
  else
    let next := activated id { s with stateId := id }
    (if id = .suspended then next.record .suspended else next).record (.stateChanged id)

/-! ## The queue -/

section Queue

variable [DecidableEq J] (S : Setup J P σ ε)

/-- The body of the loop of `enqueue_p` for one job of a batch of `n`. -/
def enqueueJob (n : ℕ) (job : J) (s : State J P T σ ε) : State J P T σ ε :=
  let s := s.adjustInventory n
  reschedule
    { s with
      assignments := Library.insertFromBack S.priority job s.assignments
      status := Function.update s.status job .queued
      log := s.log ++ [.enqueued job] }

/-- `Weaver::enqueue_p`; null pointers are passed over. -/
def enqueueP (jobs : List (Option J)) (s : State J P T σ ε) : State J P T σ ε :=
  jobs.foldl (fun s job =>
    match job with
    | some job => s.enqueueJob S jobs.length job
    | none => s) s

/-- The end of `dequeue_p(JobPointer)`: take the job out of the list. -/
def takeOut (job : J) (s : State J P T σ ε) : State J P T σ ε :=
  { s with
    assignments := s.assignments.erase job
    status := Function.update s.status job .new
    log := s.log ++ [.dequeued job] }

/-- `Weaver::dequeue_p(JobPointer)`, with hooks nested up to the given depth.  The job is
looked up, its hook runs, and it is looked up again and taken out.  It returns if it found the
job. -/
def dequeueNested : ℕ → J → State J P T σ ε → Bool × State J P T σ ε
  | depth, job, s =>
      if job ∈ s.assignments then
        let s := match depth with
          | 0 => s
          | depth + 1 =>
              (S.aboutToBeDequeued job).foldl (fun s other => (dequeueNested depth other s).2) s
        (true, s.takeOut job)
      else (false, s)

/-- `Weaver::dequeue_p(JobPointer)`. -/
def dequeueP (job : J) (s : State J P T σ ε) : Bool × State J P T σ ε :=
  dequeueNested S (S.hookRank job) job s

/-- `Weaver::dequeue(JobPointer)`, which the state object `Destructed` ignores. -/
def dequeue (job : J) (s : State J P T σ ε) : Bool × State J P T σ ε :=
  if s.stateId = .destructed then (false, s) else s.dequeueP S job

/-- The hook `aboutToBeDequeued` of a job. -/
def runHook (job : J) (s : State J P T σ ε) : State J P T σ ε :=
  (S.aboutToBeDequeued job).foldl (fun s other => (s.dequeueP S other).2) s

/-- The loop of `dequeue_p()` over the positions of the list, which hooks may shorten. -/
def dequeueLoop : ℕ → ℕ → State J P T σ ε → State J P T σ ε
  | 0, _, s => s
  | fuel + 1, index, s =>
      match s.assignments[index]? with
      | none => s
      | some job => dequeueLoop fuel (index + 1) (s.runHook S job)

/-- `Weaver::dequeue_p()`: the hook of every job in the list, then the list is cleared. -/
def dequeueAllP (s : State J P T σ ε) : State J P T σ ε :=
  let s := s.dequeueLoop S s.assignments.length 0
  { s with
    assignments := []
    log := s.log ++ s.assignments.map Event.dequeued }

/-- `Weaver::setMaximumNumberOfThreads_p` and the `reschedule` after it. -/
def setMaximumNumberOfThreadsP (cap : ℕ) (s : State J P T σ ε) : State J P T σ ε :=
  let createInitialThread := s.inventoryMax = 0 ∧ 0 < cap
  let s := { s with inventoryMax := cap }
  (if createInitialThread then s.adjustInventory 1 else s).reschedule

/-- `Weaver::requestAbort_p`: the jobs that the threads of the inventory hold. -/
def requestAbortP (s : State J P T σ ε) : State J P T σ ε :=
  { s with
    shouldAbort := fun job =>
      s.shouldAbort job || s.inventory.any fun thread =>
        decide ((s.worker thread).pc.currentJob? = some job) }

/-! ## Assigning jobs -/

/-- The scan of the list in `takeFirstAvailableJobOrSuspendOrWait`: the first job that can
be executed, the list without it, and the state of the policies. -/
def scan (queuePolicies : J → List P) : List J → σ → Option J × List J × σ
  | [], state => (none, [], state)
  | candidate :: rest, state =>
      let answer := S.policies.canBeExecuted (queuePolicies candidate) candidate state
      if answer.1 then (some candidate, rest, answer.2)
      else
        let found := scan queuePolicies rest answer.2
        (found.1, candidate :: found.2.1, found.2.2)

/-- How `takeFirstAvailableJobOrSuspendOrWait` ends: it returns a job or a null pointer, it
blocks in `jobAvailable.wait` and will return a null pointer, or it throws `AbortThread`. -/
inductive Reply (J : Type*)
  | job (job : J)
  | null
  | waits
  | abortThread
  deriving DecidableEq, Repr

/-- The beginning of `Weaver::takeFirstAvailableJobOrSuspendOrWait`, up to the point where
it is decided what becomes of the thread. -/
def enterTakeFirst (threadWasBusy : Bool) (s : State J P T σ ε) : State J P T σ ε :=
  let s := s.deleteExpiredThreads.adjustInventory 1
  if threadWasBusy then s.adjustActiveThreadCount (-1) else s

/-- `Weaver::takeFirstAvailableJobOrSuspendOrWait`, when the expired threads have finished. -/
def takeFirstAvailableJobOrSuspendOrWait (thread : ℕ)
    (threadWasBusy suspendIfInactive justReturning : Bool) (s : State J P T σ ε) :
    Reply J × State J P T σ ε :=
  let s := s.enterTakeFirst threadWasBusy
  if suspendIfInactive ∧ s.active = 0 ∧ s.stateId = .suspending then
    (.null, s.setStateP .suspended)
  else if s.stateId ≠ .workingHard ∨ justReturning then (.null, s)
  else if s.inventoryMax < s.inventory.length then
    (.abortThread,
      { s with
        inventory := s.inventory.filter (· ≠ thread)
        expiredThreads := s.expiredThreads ++ [thread] })
  else
    let found := scan S s.queuePolicies s.assignments s.policyState
    match found.1 with
    | some job =>
        (.job job,
          (record (.assigned thread job)
            { s with assignments := found.2.1, policyState := found.2.2 }).adjustActiveThreadCount 1)
    | none => (.waits, { s with assignments := found.2.1, policyState := found.2.2 })

/-- `WorkingHardState::applyForWork`.  After a null pointer it applies again. -/
def workingHardApplyForWork (thread : ℕ) (wasBusy : Bool) (s : State J P T σ ε) :
    State J P T σ ε :=
  let taken := s.takeFirstAvailableJobOrSuspendOrWait S thread wasBusy false false
  match taken.1 with
  | .job job => taken.2.returnTo thread (.busy job .assigned)
  | .null => taken.2.moveTo thread (.applyForWork false)
  | .waits => taken.2.moveTo thread (.waiting false)
  | .abortThread => taken.2.returnTo thread .exited

/-- `SuspendingState::applyForWork`, up to its call of `waitForAvailableJob`.  It drops the
pointer it gets. -/
def suspendingApplyForWork (thread : ℕ) (wasBusy : Bool) (s : State J P T σ ε) :
    State J P T σ ε :=
  let taken := s.takeFirstAvailableJobOrSuspendOrWait S thread wasBusy true true
  match taken.1 with
  | .job _ | .null => taken.2.moveTo thread (.waitForAvailableJob false)
  | .waits => taken.2.moveTo thread (.waiting false)
  | .abortThread => taken.2.returnTo thread .exited

end Queue

/-! ## Queue policies -/

/-- `Job::assignQueuePolicy` on the list of a job. -/
def assignQueuePolicy [DecidableEq P] (policies : List P) (policy : P) : List P :=
  if policy ∈ policies then policies else policies ++ [policy]

/-- `Job::removeQueuePolicy` on the list of a job. -/
def removeQueuePolicy [DecidableEq P] (policies : List P) (policy : P) : List P :=
  policies.erase policy

section Lists

variable [DecidableEq P] {policies : List P} {policy other : P}

theorem mem_assignQueuePolicy :
    other ∈ assignQueuePolicy policies policy ↔ other = policy ∨ other ∈ policies := by
  unfold assignQueuePolicy
  split
  · rename_i hmem
    constructor
    · exact .inr
    · rintro (rfl | h)
      · exact hmem
      · exact h
  · simp [or_comm]

theorem nodup_assignQueuePolicy (policy : P) (h : policies.Nodup) :
    (assignQueuePolicy policies policy).Nodup := by
  unfold assignQueuePolicy
  split
  · exact h
  · rename_i hnot
    exact List.nodup_append.mpr ⟨h, List.nodup_singleton policy, by
      simpa using fun a ha (heq : a = policy) => hnot (heq ▸ ha)⟩

theorem mem_removeQueuePolicy_of_ne (hne : other ≠ policy) :
    other ∈ removeQueuePolicy policies policy ↔ other ∈ policies :=
  List.mem_erase_of_ne hne

theorem mem_of_mem_removeQueuePolicy (h : other ∈ removeQueuePolicy policies policy) :
    other ∈ policies :=
  List.mem_of_mem_erase h

theorem nodup_removeQueuePolicy (policy : P) (h : policies.Nodup) :
    (removeQueuePolicy policies policy).Nodup :=
  h.erase policy

theorem notMem_removeQueuePolicy (h : policies.Nodup) :
    policy ∉ removeQueuePolicy policies policy :=
  h.not_mem_erase

end Lists

/-- One operation by the program on the policy lists of the jobs and the policies' state. -/
def applyPolicyOp [DecidableEq J] [DecidableEq P] (S : Setup J P σ ε)
    (policies : (J → List P) × σ) : PolicyOp J P ε → (J → List P) × σ
  | .assignQueuePolicy job policy =>
      (Function.update policies.1 job (assignQueuePolicy (policies.1 job) policy), policies.2)
  | .removeQueuePolicy job policy =>
      (Function.update policies.1 job (removeQueuePolicy (policies.1 job) policy), policies.2)
  | .call call => (policies.1, S.call call policies.2)

/-- Operations on the policies, executed together under the mutexes of the jobs. -/
def configure [DecidableEq J] [DecidableEq P] (S : Setup J P σ ε)
    (ops : List (PolicyOp J P ε)) (s : State J P T σ ε) : State J P T σ ε :=
  let policies := ops.foldl (applyPolicyOp S) (s.queuePolicies, s.policyState)
  { s with
    queuePolicies := policies.1
    policyState := policies.2
    log := s.log ++ [.configured ops] }

end State

/-! ## Steps -/

section Step

variable [DecidableEq J] [DecidableEq P] (S : Setup J P σ ε)

/-- The next step of a worker thread, or `none` where it is blocked or has exited. -/
def workerStep (thread : ℕ) (s : State J P T σ ε) : Option (State J P T σ ε) :=
  match (s.worker thread).pc with
  | .started =>
      some ({ s with semaphore := s.semaphore + 1 }.moveTo thread (.applyForWork false))
  | .applyForWork wasBusy =>
      some { s with
        worker := Function.update s.worker thread
          ⟨.dispatched s.stateId wasBusy, (s.worker thread).activations + 1⟩ }
  | .dispatched .workingHard wasBusy =>
      if s.ExpiredFinished then some (s.workingHardApplyForWork S thread wasBusy) else none
  | .dispatched .suspending wasBusy =>
      if s.ExpiredFinished then some (s.suspendingApplyForWork S thread wasBusy) else none
  | .dispatched .suspended wasBusy | .dispatched .inConstruction wasBusy =>
      some (s.moveTo thread (.waitForAvailableJob wasBusy))
  | .dispatched .shuttingDown _ | .dispatched .destructed _ =>
      some (s.returnTo thread .exited)
  | .waitForAvailableJob wasBusy =>
      -- the wait of the last two state objects returns immediately
      some (s.moveTo thread
        (if s.stateId = .shuttingDown ∨ s.stateId = .destructed then .applyForWork wasBusy
          else .blockThread wasBusy))
  | .blockThread wasBusy => some (s.moveTo thread (.waiting wasBusy))
  | .waiting _ => none
  | .woken wasBusy => some (s.moveTo thread (.applyForWork wasBusy))
  | .busy job .assigned => some (s.moveTo thread (.busy job .executing))
  | .busy job .executing =>
      some ({ s with status := Function.update s.status job .running }.moveTo thread
        (.busy job .running))
  | .busy job .running =>
      some ({ s with status := Function.update s.status job (S.outcome job).status }.moveTo
        thread (.busy job .ending))
  | .busy job .ending =>
      some ((s.record (.ended job (s.status job))).moveTo thread (.busy job (.freeing 0)))
  | .busy job (.freeing index) =>
      -- the loop reads the list of policies anew for every index
      match (s.queuePolicies job)[index]? with
      | some policy =>
          some ({ s with
            policyState := S.policies.free policy job (s.status job) s.policyState }.moveTo
            thread (.busy job (.freeing (index + 1))))
      | none => some (s.moveTo thread (.busy job .returned))
  | .busy _ .returned => some (s.moveTo thread (.applyForWork true))
  | .exited => none

/-- What threads do. -/
inductive Act (J P T ε : Type*)
  | enqueue (jobs : List (Option J))
  | dequeue (job : J)
  | dequeueAll
  | setMaximumNumberOfThreads (cap : ℕ)
  | requestAbort
  | reschedule
  /-- the unlocked read of the state pointer in `suspend` -/
  | suspend (caller : T)
  | resume (caller : T)
  | finish (caller : T)
  | shutDown (caller : T)
  /-- a thread changes policies and has to call `reschedule` -/
  | configure (caller : T) (ops : List (PolicyOp J P ε))
  /-- the running job of a worker changes policies -/
  | configureFromJob (thread : ℕ) (ops : List (PolicyOp J P ε))
  /-- the next step of a call in progress -/
  | proceed (caller : T)
  /-- the wait in `finish_p` times out -/
  | timeout (caller : T)
  | worker (thread : ℕ)
  deriving DecidableEq, Repr

variable [DecidableEq T]

/-- The caller is now at `pc`. -/
def State.setCaller (caller : T) (pc : CallerPc) (s : State J P T σ ε) : State J P T σ ε :=
  { s with caller := Function.update s.caller caller pc }

/-- The next step of `Weaver::shutDown_p`. -/
def shutDownStep (caller : T) (s : State J P T σ ε) :
    ShutDownPc → Option (State J P T σ ε)
  | .acquire =>
      if s.createdThreads ≤ s.semaphore then
        some ({ s with semaphore := s.semaphore - s.createdThreads }.setCaller caller
          (.shutDown .finish))
      else none
  | .finish => if s.isIdleP then some (s.setCaller caller (.shutDown .suspend)) else none
  | .suspend =>
      some (s.setCaller caller
        (.shutDown (if s.stateId = .workingHard then .setSuspending else .setShuttingDown)))
  | .setSuspending =>
      some ((s.setCaller caller (.shutDown .setShuttingDown)).setStateP .suspending)
  | .setShuttingDown =>
      some ((s.setCaller caller (.shutDown .reschedule)).setStateP .shuttingDown)
  | .reschedule => some (s.setCaller caller (.shutDown .collect)).reschedule
  | .collect =>
      match s.inventory with
      | [] => some (s.setCaller caller (.shutDown .setDestructed))
      | thread :: rest =>
          some ({ s with inventory := rest }.setCaller caller (.shutDown (.join thread)))
  | .join thread =>
      if (s.worker thread).pc = .exited then
        some ((s.setCaller caller (.shutDown .collect)).record (.deleted thread))
      else some s.reschedule
  | .setDestructed => some ((s.setCaller caller .idle).setStateP .destructed)

/-- The next step of a call in progress. -/
def callerStep (caller : T) (s : State J P T σ ε) : Option (State J P T σ ε) :=
  match s.caller caller with
  | .idle => none
  | .setState id => some ((s.setCaller caller .idle).setStateP id)
  | .reschedule => some (s.setCaller caller .idle).reschedule
  | .finish => if s.isIdleP then some (s.setCaller caller .idle) else none
  | .shutDown rest => shutDownStep caller s rest

/-- The state objects `Destructed` and all others: `Destructed` ignores the call. -/
def unlessDestructed (f : State J P T σ ε → State J P T σ ε) (s : State J P T σ ε) :
    State J P T σ ε :=
  if s.stateId = .destructed then s else f s

omit [DecidableEq P] [DecidableEq T] in
theorem State.dequeue_snd (job : J) (s : State J P T σ ε) :
    (s.dequeue S job).2 = unlessDestructed (fun s => (s.dequeueP S job).2) s := by
  unfold dequeue unlessDestructed
  split <;> rfl

/-- An idle caller moves to `pc`. -/
def beginCall (caller : T) (pc : CallerPc) (s : State J P T σ ε) : Option (State J P T σ ε) :=
  if s.caller caller = .idle then some (s.setCaller caller pc) else none

/-- One step of the weaver and of the threads around it. -/
def step (s : State J P T σ ε) : Act J P T ε → Option (State J P T σ ε)
  | .enqueue jobs => some (unlessDestructed (·.enqueueP S jobs) s)
  | .dequeue job => some (s.dequeue S job).2
  | .dequeueAll => some (unlessDestructed (·.dequeueAllP S) s)
  | .setMaximumNumberOfThreads cap =>
      some (unlessDestructed (·.setMaximumNumberOfThreadsP cap) s)
  | .requestAbort => some (unlessDestructed (·.requestAbortP) s)
  | .reschedule => some s.reschedule
  | .suspend caller =>
      beginCall caller (if s.stateId = .workingHard then .setState .suspending else .idle) s
  | .resume caller =>
      beginCall caller
        (if s.stateId = .suspending ∨ s.stateId = .suspended then .setState .workingHard
          else .idle) s
  | .finish caller =>
      beginCall caller (if s.stateId = .destructed then .idle else .finish) s
  | .shutDown caller =>
      beginCall caller
        (if s.stateId = .shuttingDown ∨ s.stateId = .destructed then .idle
          else .shutDown .acquire) s
  | .configure caller ops => (beginCall caller .reschedule s).map (·.configure S ops)
  | .configureFromJob thread ops =>
      if thread < s.createdThreads ∧ (s.worker thread).pc.isRunning then
        some (s.configure S ops)
      else none
  | .proceed caller => callerStep caller s
  | .timeout caller =>
      if s.caller caller = .finish ∧ s.isIdleP = false then some s.reschedule else none
  | .worker thread => if thread < s.createdThreads then workerStep S thread s else none

/-- The runs of the weaver whose steps satisfy `ok`. -/
abbrev Runs (ok : State J P T σ ε → Act J P T ε → Prop) (start : Start J P σ)
    (s : State J P T σ ε) : Prop :=
  Library.RunWhere (step S) ok (init S start) s

end Step

end ThreadWeaver.Weaver
