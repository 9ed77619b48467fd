import ThreadWeaver.Collection.State

/-!
# The steps of nested collections

The functions of `collection.cpp`, `collection_p.cpp`, `sequence_p.cpp` and of the queue, cut
into operations where they wait for a mutex or call a function that does.  `exec` says what
an operation does to the data and which operations take its place on the stack of the
thread; it is done only when the mutex that it wants is free.

A section in which no other mutex is taken is one step, and the mutex, free before the
step, is free after it.  The loop of `freeQueuePolicyResources` is one step as well.
-/

namespace ThreadWeaver.Collection

open Weaver.State (assignQueuePolicy removeQueuePolicy)

variable {J P T σ : Type*}

namespace Data

/-! ## Jobs -/

section

variable [DecidableEq J]

def lock (mutex : Mutex J) (thread : Thread T) (d : Data J P T σ) : Data J P T σ :=
  { d with holder := Function.update d.holder mutex (some thread) }

def unlock (mutex : Mutex J) (d : Data J P T σ) : Data J P T σ :=
  { d with holder := Function.update d.holder mutex none }

def setStatus (job : J) (status : Status) (d : Data J P T σ) : Data J P T σ :=
  { d with status := Function.update d.status job status }

/-- The job has got to `place`. -/
def moveTo (job : J) (place : Place T) (d : Data J P T σ) : Data J P T σ :=
  { d with place := Function.update d.place job place }

/-- Record an event. -/
def record (event : Event J T) (d : Data J P T σ) : Data J P T σ :=
  { d with log := d.log ++ [event] }

/-- Record calls of the queue policies for a job. -/
def recordCalls (job : J) (calls : List (Call (Option P))) (d : Data J P T σ) : Data J P T σ :=
  { d with calls := Function.update d.calls job (d.calls job ++ calls) }

variable (F : Forest J P σ)

/-- `Job_Private::freeQueuePolicyResources`. -/
def freeQueuePolicyResources (job : J) (d : Data J P T σ) : Data J P T σ :=
  recordCalls job ((d.queuePolicies job).map .free)
    { d with
      policyState := (d.queuePolicies job).foldl
        (fun state policy => (withBlocker F.policies).free policy job (d.status job) state)
        d.policyState }

/-! ## The queue -/

/-- What `Weaver_Private::canBeExecuted` answers. -/
def canBeExecuted (job : J) (d : Data J P T σ) : Bool :=
  ((withBlocker F.policies).canBeExecuted (d.queuePolicies job) job d.policyState).1

/-- The calls that `Weaver_Private::canBeExecuted` makes. -/
def askPolicies (job : J) (d : Data J P T σ) : Data J P T σ :=
  recordCalls job ((withBlocker F.policies).calls job (d.queuePolicies job) d.policyState)
    { d with
      policyState :=
        ((withBlocker F.policies).canBeExecuted (d.queuePolicies job) job d.policyState).2 }

/-- `Weaver::isIdle_p`. -/
def isIdleP (d : Data J P T σ) : Bool :=
  d.assignments.isEmpty && d.active == 0

/-- `Weaver::decActiveThreadCount`. -/
def decActiveThreadCount (d : Data J P T σ) : Data J P T σ :=
  { d with
    active := d.active - 1
    log := if d.assignments.isEmpty ∧ d.active - 1 = 0 then d.log ++ [.finished] else d.log }

/-- The job leaves the queue for the thread. -/
def assign (thread : Thread T) (job : J) (d : Data J P T σ) : Data J P T σ :=
  record (.assigned thread job) <| moveTo job (.held .assigned thread)
    { d with
      assignments := d.assignments.erase job
      active := d.active + 1 }

/-- The body of the loop of `enqueue_p`, in which `Collection::aboutToBeQueued_locked` sets
`api`. -/
def enqueueJob (job : J) (d : Data J P T σ) : Data J P T σ :=
  record (.enqueued job) <| moveTo job .queued <| setStatus job .queued
    { d with
      api := if F.kind job = .plain then d.api else Function.update d.api job true
      assignments := Library.insertFromBack F.priority job d.assignments }

/-- `dequeue_p` has found the job in the queue. -/
def take (stage : Stage) (thread : Thread T) (job : J) (d : Data J P T σ) : Data J P T σ :=
  record (.dequeued job) (moveTo job (.held stage thread) d)

/-- The end of `dequeue_p`: take the job out of the list. -/
def takeAt (job : J) (d : Data J P T σ) : Data J P T σ :=
  setStatus job .new { d with assignments := d.assignments.erase job }

/-! ## Collections -/

/-- The first part of `Collection::execute`. -/
def executeCollection (collection : J) (d : Data J P T σ) : Data J P T σ :=
  { d with
    self := Function.update d.self collection true
    selfIsExecuting := Function.update d.selfIsExecuting collection true }

/-- The status that `finalCleanup` sets, or leaves in its last branch. -/
def finalStatus (collection : J) (d : Data J P T σ) : Status :=
  if d.shouldAbort collection then .aborted
  else if (d.status collection).toNat < Status.success.toNat then .success
  else d.status collection

/-- `Collection_Private::finalCleanup`. -/
def finalCleanup (collection : J) (d : Data J P T σ) : Data J P T σ :=
  let d := setStatus collection (d.finalStatus collection) d
  let d := freeQueuePolicyResources F collection d
  record (.cleanedUp collection) { d with api := Function.update d.api collection false }

/-- `Collection_Private::enqueueElements` and, in a Sequence, the first part of
`prepareToEnqueueElements`.  The elements are in the hands of the thread. -/
def enqueueElements (thread : Thread T) (collection : J) (d : Data J P T σ) : Data J P T σ :=
  { d with
    completed :=
      if F.kind collection = .sequence then Function.update d.completed collection 0
      else d.completed
    jobCounter :=
      Function.update d.jobCounter collection (((F.elements collection).length : ℤ) + 1)
    opened := Function.update d.opened collection true
    place := fun job =>
      if job ∈ F.elements collection then .held .pending thread else d.place job }

/-- The status that `Collection_Private::updateStatus` sets and returns. -/
def updatedStatus (job : J) (d : Data J P T σ) : Status :=
  if d.status job = .success then .running else d.status job

/-- `jobCounter.fetchAndAddOrdered(-1)`. -/
def decJobCounter (collection : J) (d : Data J P T σ) : Data J P T σ :=
  { d with
    jobCounter := Function.update d.jobCounter collection (d.jobCounter collection - 1) }

/-- Where a job is when its collection has counted it: `job` is the collection itself or
one of its elements. -/
def count (collection job : J) (d : Data J P T σ) : Data J P T σ :=
  moveTo job (if job = collection then .waiting else .reported) (decJobCounter collection d)

end

end Data

/-! ## Operations -/

section Exec

variable [DecidableEq J] [DecidableEq P] (F : Forest J P σ)

/-- The mutex that has to be free for an operation. -/
def wants : Op J → Option (Mutex J)
  | .applyForWork _ | .enqueue _ | .dequeueSelf _ | .finish => some .weaver
  | .takeFirst (job :: _) => some (.job job)
  | .execute job => if F.kind job = .plain then none else some (.job job)
  | .elementStarted job | .defaultEnd job | .elementFinished job _ | .assignBlocker job |
    .restoreStatus job _ _ | .removeBlocker job | .clearSelf job | .enqueueJob job | .stop job |
    .stopElements job | .aboutToBeDequeued job | .abortElements job => some (.job job)
  | .dequeueElement _ _ queueApiIsLocked => if queueApiIsLocked then none else some .weaver
  | .takeFirst [] | .setRunning _ | .setStatus _ _ | .run _ | .processCompletedElement _ _ |
    .advance _ _ | .countDown _ _ | .leave _ | .dequeueElements _ _ | .discount _ _ |
    .checkLast _ | .resetApi _ | .takeAt _ | .requestAbort _ | .abortElement _ | .unlock _ => none

/-- `elementDequeued`, which does something in Sequences only. -/
def elementDequeued (collection element : J) : List (Op J) :=
  if F.kind collection = .sequence then [.removeBlocker element] else []

/-- `begin` of the `CollectionExecuteWrapper` around a job that is an element. -/
def beginElement (job : J) : List (Op J) :=
  (F.parent job).toList.map .elementStarted

/-- What `run` does to the status of its job before it ends. -/
def setInRun (job : J) : List (Op J) :=
  (F.statusInRun job).toList.map (.setStatus job)

/-- What an operation does and what is left to be done after it. -/
def exec (thread : Thread T) : Op J → Data J P T σ → Data J P T σ × List (Op J)
  -- the queue
  | .applyForWork wasBusy, d =>
      let d := d.lock .weaver thread
      let d := if wasBusy then d.decActiveThreadCount else d
      (d, [.takeFirst d.assignments])
  | .takeFirst [], d => (d.unlock .weaver, [.applyForWork false])
  | .takeFirst (job :: rest), d =>
      if d.canBeExecuted F job then
        (((d.askPolicies F job).assign thread job).unlock .weaver,
          [.execute job, .applyForWork true])
      else (d.askPolicies F job, [.takeFirst rest])
  | .enqueue jobs, d => (d.lock .weaver thread, jobs.map .enqueueJob ++ [.unlock .weaver])
  | .enqueueJob job, d => (d.enqueueJob F job, [])
  | .finish, d =>
      if d.isIdleP then (d.record (.finishReturned thread), []) else (d, [.finish])
  | .unlock mutex, d => (d.unlock mutex, [])
  -- the execution of a job
  | .execute job, d =>
      let d := (d.record (.started job)).moveTo job (.held .executing thread)
      if F.kind job = .plain then (d, beginElement F job ++ [.setRunning job])
      else (d.executeCollection job, [.elementStarted job, .setRunning job])
  | .elementStarted collection, d =>
      ({ d.lock (.job collection) thread with
          jobsStarted :=
            Function.update d.jobsStarted collection (d.jobsStarted collection + 1) },
        -- `callBegin` on the first of them
        (if d.jobsStarted collection = 0 then beginElement F collection else []) ++
          [.unlock (.job collection)])
  | .setRunning job, d => (d.setStatus job .running, setInRun F job ++ [.run job])
  | .setStatus job status, d => (d.setStatus job status, [])
  | .run job, d =>
      let d := d.setStatus job (F.runStatus job)
      if F.kind job = .plain then (d.moveTo job (.held .ending thread), [.defaultEnd job])
      else (d, [.elementFinished job job])
  | .defaultEnd job, d =>
      let d := (d.record (.ended job (d.status job))).freeQueuePolicyResources F job
      match F.parent job with
      | none => (d.moveTo job .reported, [])
      | some collection =>
          (d.moveTo job (.held .reporting thread), [.elementFinished collection job])
  -- the completion of an element, or of the own job of a collection
  | .elementFinished collection job, d =>
      let d := d.lock (.job collection) thread
      if d.selfIsExecuting collection then
        let d := ({ d with
          selfIsExecuting := Function.update d.selfIsExecuting collection false }).moveTo
            job (.held .closing thread)
        if d.shouldAbort collection then (d, [.processCompletedElement collection job])
        else
          (d.enqueueElements F thread collection,
            (if F.kind collection = .sequence then
              (F.elements collection).map .assignBlocker else []) ++
            [.enqueue (F.elements collection), .processCompletedElement collection job])
      else (d, [.processCompletedElement collection job])
  | .assignBlocker element, d =>
      ({ d with
          queuePolicies := Function.update d.queuePolicies element
            (assignQueuePolicy (d.queuePolicies element) none) }, [])
  | .processCompletedElement collection job, d =>
      let updatedStatus := d.updatedStatus job
      let d := d.setStatus collection updatedStatus
      if F.kind collection = .sequence then
        if updatedStatus = .running then (d, [.advance collection job])
        else
          (d.unlock (.job collection),
            [.stop collection, .restoreStatus collection job updatedStatus])
      else (d, [.countDown collection job])
  | .restoreStatus collection job status, d =>
      ((d.lock (.job collection) thread).setStatus collection status, [.advance collection job])
  | .advance collection job, d =>
      ({ d with
          completed := Function.update d.completed collection (d.completed collection + 1) },
        ((F.elements collection)[d.completed collection]?).toList.map .removeBlocker ++
          [.countDown collection job])
  | .removeBlocker element, d =>
      ({ d with
          queuePolicies := Function.update d.queuePolicies element
            (removeQueuePolicy (d.queuePolicies element) none) }, [])
  | .countDown collection job, d =>
      let d := d.count collection job
      if d.jobCounter collection = 0 then
        (((d.finalCleanup F collection).moveTo collection (.held .ending thread)).unlock
            (.job collection),
          [.defaultEnd collection, .clearSelf collection])
      else (d.unlock (.job collection), [])
  | .clearSelf collection, d =>
      ({ d with self := Function.update d.self collection false }, [])
  -- stop
  | .stop collection, d => (d, if d.api collection then [.dequeueSelf collection] else [])
  | .dequeueSelf collection, d =>
      if collection ∈ d.assignments then
        ((d.lock .weaver thread).take .leaving thread collection,
          [.aboutToBeDequeued collection, .takeAt collection, .unlock .weaver,
            .leave collection])
      else (d, [.stopElements collection])
  | .leave collection, d =>
      -- a job that is no element can be enqueued again
      (d.moveTo collection (if F.parent collection = none then .fresh else .lost), [])
  | .stopElements collection, d =>
      (d.lock (.job collection) thread,
        [.dequeueElements collection false, .unlock (.job collection)])
  | .dequeueElements collection queueApiIsLocked, d =>
      (d, if d.api collection then
          (F.elements collection).map (.dequeueElement collection · queueApiIsLocked) ++
            [.checkLast collection]
        else [])
  | .dequeueElement collection element queueApiIsLocked, d =>
      if element ∈ d.assignments then
        let d := d.take .taken thread element
        if queueApiIsLocked then
          (d, [.aboutToBeDequeued element, .takeAt element, .discount collection element] ++
            elementDequeued F collection element)
        else
          (d.lock .weaver thread,
            [.aboutToBeDequeued element, .takeAt element, .unlock .weaver,
              .discount collection element] ++ elementDequeued F collection element)
      else (d, elementDequeued F collection element)
  | .discount collection element, d =>
      ((d.decJobCounter collection).moveTo element .discounted, [])
  | .checkLast collection, d =>
      (if d.jobCounter collection = 1 then d.finalCleanup F collection else d, [])
  | .aboutToBeDequeued job, d =>
      if F.kind job = .plain then (d, [])
      else (d.lock (.job job) thread, [.dequeueElements job true, .resetApi job])
  | .resetApi collection, d =>
      ({ d with api := Function.update d.api collection false }.unlock (.job collection), [])
  | .takeAt job, d => (d.takeAt job, [])
  -- requestAbort
  | .requestAbort job, d =>
      ({ d with shouldAbort := Function.update d.shouldAbort job true },
        if F.kind job = .plain then [] else [.stop job, .abortElements job])
  | .abortElements collection, d =>
      (d.lock (.job collection) thread,
        (F.elements collection).map .abortElement ++ [.unlock (.job collection)])
  | .abortElement element, d =>
      (d, if (d.status element).toNat ≤ Status.running.toNat then [.requestAbort element]
        else [])

omit [DecidableEq J] [DecidableEq P] in
@[simp]
theorem mem_setInRun {F : Forest J P σ} {job : J} {op : Op J} :
    op ∈ setInRun F job ↔
      ∃ status, F.statusInRun job = some status ∧ .setStatus job status = op := by
  simp [setInRun]

end Exec

/-! ## Steps -/

/-- What threads do. -/
inductive Act (J T : Type*)
  /-- the next operation on the stack of a thread -/
  | run (thread : Thread T)
  | enqueue (caller : T) (jobs : List J)
  | stop (caller : T) (collection : J)
  | requestAbort (caller : T) (job : J)
  | finish (caller : T)
  deriving DecidableEq, Repr

section Step

variable [DecidableEq J] [DecidableEq P] [DecidableEq T] (F : Forest J P σ)

namespace State

/-- The mutex that the thread has to wait for is held by `other`. -/
def WaitsFor (s : State J P T σ) (thread other : Thread T) : Prop :=
  ∃ op rest mutex, s.stack thread = op :: rest ∧ wants F op = some mutex ∧
    s.data.holder mutex = some other

/-- The next operation of a thread. -/
def runThread (thread : Thread T) (s : State J P T σ) : Option (State J P T σ) :=
  match s.stack thread with
  | [] => none
  | op :: rest =>
      if (wants F op).all (fun mutex => s.data.holder mutex = none) then
        let result := exec F thread op s.data
        some ⟨result.1, Function.update s.stack thread (result.2 ++ rest)⟩
      else none

/-- A thread that has nothing left to do begins a call. -/
def beginCall (caller : T) (ops : List (Op J)) (s : State J P T σ) : Option (State J P T σ) :=
  if s.stack (.caller caller) = [] then
    some { s with stack := Function.update s.stack (.caller caller) ops }
  else none

/-- Jobs that are no elements come into the hands of a thread that enqueues them. -/
def takeUp (thread : Thread T) (jobs : List J) (s : State J P T σ) : State J P T σ :=
  { s with data := { s.data with
      place := fun job => if job ∈ jobs then .held .pending thread else s.data.place job } }

end State

/-- One step of the threads. -/
def step (s : State J P T σ) : Act J T → Option (State J P T σ)
  | .run thread => s.runThread F thread
  | .enqueue caller jobs =>
      if jobs.Nodup ∧ ∀ job ∈ jobs, F.parent job = none ∧ s.data.place job = .fresh then
        (s.takeUp (.caller caller) jobs).beginCall caller [.enqueue jobs]
      else none
  | .stop caller collection =>
      if F.kind collection = .plain then none else s.beginCall caller [.stop collection]
  | .requestAbort caller job => s.beginCall caller [.requestAbort job]
  | .finish caller => s.beginCall caller [.finish]

/-- The runs whose steps satisfy `ok`. -/
abbrev Runs (ok : State J P T σ → Act J T → Prop) (start : Weaver.Start J P σ)
    (s : State J P T σ) : Prop :=
  Library.RunWhere (step F) ok (init start) s

/-- Nobody calls `stop` or `requestAbort` from outside. -/
def Undisturbed (_ : State J P T σ) : Act J T → Prop
  | .stop _ _ | .requestAbort _ _ => False
  | .run _ | .enqueue _ _ | .finish _ => True

instance (s : State J P T σ) (act : Act J T) : Decidable (Undisturbed s act) := by
  cases act
  case stop | requestAbort => exact isFalse id
  all_goals exact isTrue trivial

/-- The thread that acts. -/
def Act.thread : Act J T → Thread T
  | run thread => thread
  | enqueue caller _ | stop caller _ | requestAbort caller _ | finish caller => .caller caller

/-- The stacks of the other threads stay as they are. -/
theorem step_stack_of_ne {s next : State J P T σ} {act : Act J T} {thread : Thread T}
    (h : step F s act = some next) (hne : thread ≠ act.thread) :
    next.stack thread = s.stack thread := by
  have hcall : ∀ {before : State J P T σ} {caller ops}, before.beginCall caller ops = some next →
      thread ≠ .caller caller → next.stack thread = before.stack thread := by
    intro before caller ops hbegin hother
    unfold State.beginCall at hbegin
    split at hbegin
    · cases hbegin
      exact Function.update_of_ne hother _ _
    · cases hbegin
  cases act with
  | run other =>
      simp only [step, State.runThread] at h
      split at h
      · cases h
      · split at h
        · cases h
          exact Function.update_of_ne hne _ _
        · cases h
  | enqueue caller jobs =>
      simp only [step] at h
      split at h
      · exact (hcall h hne).trans rfl
      · cases h
  | stop caller collection =>
      simp only [step] at h
      split at h
      · cases h
      · exact hcall h hne
  | requestAbort caller job => exact hcall h hne
  | finish caller => exact hcall h hne

/-- The run of a list of actions, which leaves the threads that do not act as they were. -/
theorem exists_runs (ok : State J P T σ → Act J T → Prop)
    [∀ state act, Decidable (ok state act)] (start : Weaver.Start J P σ)
    (goal : State J P T σ → Prop) [DecidablePred goal] (actions : List (Act J T))
    (h : (Library.execute (step F) ok (init start) actions).any
      (fun last => decide (goal last)) = true) :
    ∃ last, Runs F ok start last ∧ goal last ∧
      ∀ thread, (∀ act ∈ actions, thread ≠ act.thread) →
        last.stack thread = (init start : State J P T σ).stack thread := by
  have hframe : ∀ (actions : List (Act J T)) (s last : State J P T σ) (thread : Thread T),
      Library.execute (step F) ok s actions = some last →
      (∀ act ∈ actions, thread ≠ act.thread) → last.stack thread = s.stack thread := by
    intro actions
    induction actions with
    | nil =>
        intro s last thread hrun _
        simp only [Library.execute, Option.some.injEq] at hrun
        rw [hrun]
    | cons act rest ih =>
        intro s last thread hrun hne
        simp only [Library.execute] at hrun
        split at hrun
        · obtain ⟨next, hstep, hrest⟩ := Option.bind_eq_some_iff.mp hrun
          rw [ih next last thread hrest fun other hmem => hne other (List.mem_cons_of_mem _ hmem)]
          exact step_stack_of_ne F hstep (hne act List.mem_cons_self)
        · cases hrun
  cases hlast : Library.execute (step F) ok (init start) actions with
  | none => simp [hlast] at h
  | some last =>
      refine ⟨last, Library.runWhere_of_execute hlast, by simpa [hlast] using h, ?_⟩
      exact fun thread hne => hframe actions _ last thread hlast hne

end Step

end ThreadWeaver.Collection
