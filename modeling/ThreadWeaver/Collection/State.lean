import Mathlib.Data.Fin.VecNotation
import ThreadWeaver.Weaver.Step

/-!
# The state of nested collections

Jobs, Collections and Sequences nested to any depth, the queue they are in, and the threads
that execute and stop them.  The queue and the list of a job's queue policies are those of
the weaver's model; what is new here is the data of `Collection_Private` and
`Sequence_Private`, and that every mutex is modelled: a call that holds one mutex while it
waits for another one is several steps.

A thread is a stack of operations that it has still to do.  An operation is a piece of a
function of the source between two places where it waits for a mutex or calls a function
that does; the pieces of one function follow one another on the stack.
-/

namespace ThreadWeaver

namespace Collection

variable {J P T σ : Type*}

/-! ## The jobs of a program -/

/-- What a job is: a plain job, a Collection or a Sequence. -/
inductive Kind
  | plain
  | collection
  | sequence
  deriving DecidableEq, Repr

/-- The jobs of a program and how they are nested, with what the queue and the collections
read of them.  A job is an element of at most one collection, where it occurs once. -/
structure Forest (J P σ : Type*) where
  kind : J → Kind
  elements : J → List J
  parent : J → Option J
  elements_nodup : ∀ collection, (elements collection).Nodup
  mem_elements : ∀ collection job, job ∈ elements collection ↔ parent job = some collection
  elements_plain : ∀ job, kind job = .plain → elements job = []
  height : J → ℕ
  height_lt : ∀ job collection, parent job = some collection → height job < height collection
  priority : J → ℤ
  outcome : J → Outcome
  outcome_isFinished : ∀ job, (outcome job).status.isFinished
  policies : QueuePolicies J P σ

theorem Forest.ne_of_parent (F : Forest J P σ) {job collection : J}
    (h : F.parent job = some collection) : job ≠ collection := by
  rintro rfl
  exact lt_irrefl _ (F.height_lt _ _ h)

/-- Jobs that are numbered so that a collection comes before its elements, all of the same
priority and in the order of their numbers. -/
def Forest.numbered {n : ℕ} (kind : Fin n → Kind) (parent : Fin n → Option (Fin n))
    (hparent : ∀ job collection, parent job = some collection →
      collection < job ∧ kind collection ≠ .plain)
    (outcome : Fin n → Outcome) (houtcome : ∀ job, (outcome job).status.isFinished)
    (policies : QueuePolicies (Fin n) P σ) : Forest (Fin n) P σ where
  kind := kind
  elements collection := (List.finRange n).filter fun job => parent job = some collection
  parent := parent
  elements_nodup _ := (List.nodup_finRange n).filter _
  mem_elements collection job := by simp
  elements_plain job hkind := by
    refine List.filter_eq_nil_iff.mpr fun other _ => ?_
    simpa using fun h => (hparent other job h).2 hkind
  height job := n - job
  height_lt job collection h := by
    have := (hparent job collection h).1
    omega
  priority _ := 0
  outcome := outcome
  outcome_isFinished := houtcome
  policies := policies

/-- The status a job has after `Job::execute` has called `run`, which is empty in
Collections and Sequences. -/
def Forest.runStatus (F : Forest J P σ) (job : J) : Status :=
  if F.kind job = .plain then (F.outcome job).status else Outcome.returned.status

/-- The status that `run` of a plain job sets itself, and that others can read while it goes on. -/
def Forest.statusInRun (F : Forest J P σ) (job : J) : Option Status :=
  if F.kind job = .plain then (F.outcome job).statusInRun else none

theorem Forest.plain_of_statusInRun {F : Forest J P σ} {job : J} {status : Status}
    (h : F.statusInRun job = some status) : F.kind job = .plain := by
  unfold Forest.statusInRun at h
  split at h
  · assumption
  · cases h

/-- A program that has no queue policies. -/
def noPolicies : QueuePolicies J Empty Unit where
  canRun policy := policy.elim
  free policy := policy.elim
  release policy := policy.elim

/-- A policy that admits everything. -/
def admitAll : QueuePolicies J Unit Unit where
  canRun _ _ state := (true, state)
  free _ _ _ state := state
  release _ _ state := state

/-- A Collection `0` with one plain element. -/
def pair : Forest (Fin 2) Empty Unit :=
  .numbered ![.collection, .plain] ![none, some 0] (by decide) (fun _ => .returned) (by decide)
    noPolicies

/-- The same with policies that admit everything. -/
def admittedPair : Forest (Fin 2) Unit Unit :=
  .numbered ![.collection, .plain] ![none, some 0] (by decide) (fun _ => .returned) (by decide)
    admitAll

/-- A Collection `0` with one plain element, which sets `Status_Failed` itself in `run`. -/
def failingItself : Forest (Fin 2) Empty Unit :=
  .numbered ![.collection, .plain] ![none, some 0] (by decide)
    ![.returned, .returnedWith .failed] (by decide) noPolicies

/-- A Collection `0` with one plain element `1`, and a plain job `2`. -/
def pairAndJob : Forest (Fin 3) Empty Unit :=
  .numbered ![.collection, .plain, .plain] ![none, some 0, none] (by decide)
    (fun _ => .returned) (by decide) noPolicies

/-- Job `2` depends on the collection. -/
def jobAfterPair : Weaver.Start (Fin 3) (Option Empty) (Dependencies (Fin 3) × Unit) where
  queuePolicies := ![[none], [], [none]]
  nodup := by decide
  policyState := ([(2, 0)], ())

/-- A Sequence `0` of two plain jobs, the first of which fails. -/
def failing : Forest (Fin 3) Empty Unit :=
  .numbered ![.sequence, .plain, .plain] ![none, some 0, some 0] (by decide)
    ![.returned, .jobFailed, .returned] (by decide) noPolicies

/-- A Collection `0` of two plain jobs. -/
def twins : Forest (Fin 3) Empty Unit :=
  .numbered ![.collection, .plain, .plain] ![none, some 0, some 0] (by decide)
    ![.returned, .returned, .returned] (by decide) noPolicies

/-- A Collection `0` that contains a Collection `1` of three plain jobs, and two more plain jobs. -/
def nestAndJobs : Forest (Fin 7) Empty Unit :=
  .numbered ![.collection, .collection, .plain, .plain, .plain, .plain, .plain]
    ![none, some 0, some 1, some 1, some 1, none, none] (by decide) (fun _ => .returned)
    (by decide) noPolicies

/-- Job `5` depends on the outer Collection. -/
def jobAfterNest : Weaver.Start (Fin 7) (Option Empty) (Dependencies (Fin 7) × Unit) where
  queuePolicies := ![[none], [], [], [], [], [none], []]
  nodup := by decide
  policyState := ([(5, 0)], ())

/-- The policies of a program together with the `BlockerPolicy` of the Sequence that a job
is an element of, which is `none`. -/
def withBlocker (q : QueuePolicies J P σ) : QueuePolicies J (Option P) σ where
  canRun
    | none, _, state => (false, state)
    | some policy, job, state => q.canRun policy job state
  free
    | none, _, _, state => state
    | some policy, job, status, state => q.free policy job status state
  release
    | none, _, state => state
    | some policy, job, state => q.release policy job state

/-! ## Threads -/

inductive Thread (T : Type*)
  | worker (number : ℕ)
  /-- a thread of the program that calls the queue and the collections -/
  | caller (thread : T)
  deriving DecidableEq, Repr

inductive Mutex (J : Type*)
  | weaver
  | job (job : J)
  deriving DecidableEq, Repr

/-- What a thread has still to do. -/
inductive Op (J : Type*)
  /-- `takeFirstAvailableJobOrSuspendOrWait` up to its loop -/
  | applyForWork (wasBusy : Bool)
  /-- the loop over the jobs in the queue, under the weaver mutex -/
  | takeFirst (candidates : List J)
  /-- `execute` up to `begin` of the executor -/
  | execute (job : J)
  | elementStarted (collection : J)
  | setRunning (job : J)
  /-- `run` sets the status of its job -/
  | setStatus (job : J) (status : Status)
  /-- the end of `run`, and the status that `Job::execute` makes of it -/
  | run (job : J)
  | defaultEnd (job : J)
  /-- `elementFinished` up to `processCompletedElement` -/
  | elementFinished (collection job : J)
  /-- one turn of the loop of `prepareToEnqueueElements` -/
  | assignBlocker (element : J)
  /-- `processCompletedElement` up to the stop of a Sequence -/
  | processCompletedElement (collection job : J)
  /-- after the stop: retake the mutex and restore the status -/
  | restoreStatus (collection job : J) (status : Status)
  /-- the rest of `Sequence_Private::processCompletedElement` -/
  | advance (collection job : J)
  | removeBlocker (element : J)
  /-- the rest of `elementFinished` -/
  | countDown (collection job : J)
  /-- the end of `elementFinished`, after the mutex has been retaken -/
  | clearSelf (collection : J)
  | enqueue (jobs : List J)
  /-- the body of the loop of `enqueue_p`, under the weaver mutex -/
  | enqueueJob (job : J)
  | stop (collection : J)
  /-- the `dequeue` of a collection by its own `stop` -/
  | dequeueSelf (collection : J)
  /-- a collection has been taken out of the queue by its own `stop` -/
  | leave (collection : J)
  | stopElements (collection : J)
  | dequeueElements (collection : J) (queueApiIsLocked : Bool)
  /-- one turn of the loop of `dequeueElements` -/
  | dequeueElement (collection element : J) (queueApiIsLocked : Bool)
  /-- the element was found -/
  | discount (collection element : J)
  /-- the end of `dequeueElements` -/
  | checkLast (collection : J)
  | aboutToBeDequeued (job : J)
  /-- the end of `Collection::aboutToBeDequeued_locked` -/
  | resetApi (collection : J)
  /-- the end of `dequeue_p`, under the weaver mutex -/
  | takeAt (job : J)
  | requestAbort (job : J)
  | abortElements (collection : J)
  /-- one turn of the loop of `Collection_Private::requestAbort` -/
  | abortElement (element : J)
  | finish
  | unlock (mutex : Mutex J)
  deriving DecidableEq, Repr

/-! ## History -/

/-- What a thread that has a job in hand is doing with it. -/
inductive Stage
  /-- enqueueing it -/
  | pending
  | assigned
  /-- in `Job::execute`, up to `end` of the executor -/
  | executing
  /-- in `elementFinished` of a collection for the collection itself -/
  | closing
  /-- the default end is about to run -/
  | ending
  /-- in `elementFinished` of the collection that the job is an element of -/
  | reporting
  /-- dequeueing it in `dequeueElements` -/
  | taken
  /-- dequeueing it in its own `stop` -/
  | leaving
  deriving DecidableEq, Repr

/-- How far a job has got. -/
inductive Place (T : Type*)
  | fresh
  | held (stage : Stage) (thread : Thread T)
  | queued
  /-- a collection whose own job has been executed and whose end has not run -/
  | waiting
  /-- the end has run, and the collection that the job is an element of has counted it -/
  | reported
  /-- dequeued and subtracted from the counter of the collection it is an element of -/
  | discounted
  /-- an element taken out of the queue by its own `stop` -/
  | lost
  deriving DecidableEq, Repr

/-- The thread that has the job in hand. -/
def Place.owner : Place T → Option (Thread T × Stage)
  | held stage thread => some (thread, stage)
  | _ => none

/-- What has happened, in order. -/
inductive Event (J T : Type*)
  | enqueued (job : J)
  /-- found in the queue by `dequeue`, which is about to take the job out -/
  | dequeued (job : J)
  | assigned (thread : Thread T) (job : J)
  /-- `Job::execute` has been called -/
  | started (job : J)
  /-- `defaultEnd` has run with this status -/
  | ended (job : J) (status : Status)
  /-- `finalCleanup` has run -/
  | cleanedUp (collection : J)
  /-- the signal `finished` -/
  | finished
  /-- `finish` has returned -/
  | finishReturned (caller : Thread T)
  deriving DecidableEq, Repr

/-! ## The state -/

/-- The data shared by the threads: that of the weaver and of its queue, of `Job_Private`,
`Collection_Private` and `Sequence_Private`, and the history. -/
structure Data (J P T σ : Type*) where
  holder : Mutex J → Option (Thread T)
  assignments : List J
  active : ℤ
  status : J → Status
  shouldAbort : J → Bool
  queuePolicies : J → List (Option P)
  policyState : σ
  /-- `api` is set -/
  api : J → Bool
  jobCounter : J → ℤ
  jobsStarted : J → ℕ
  /-- `self` is set -/
  self : J → Bool
  selfIsExecuting : J → Bool
  completed : J → ℕ
  place : J → Place T
  /-- the elements have been handed to the queue -/
  opened : J → Bool
  /-- the calls of queue policies for each job -/
  calls : J → List (Call (Option P))
  log : List (Event J T)

structure State (J P T σ : Type*) where
  data : Data J P T σ
  stack : Thread T → List (Op J)

/-- Before anything is enqueued: the workers are idle. -/
def init (start : Weaver.Start J P σ) : State J P T σ where
  data :=
    { holder := fun _ => none
      assignments := []
      active := 0
      status := fun _ => .new
      shouldAbort := fun _ => false
      queuePolicies := fun job => (start.queuePolicies job).map some
      policyState := start.policyState
      api := fun _ => false
      jobCounter := fun _ => 0
      jobsStarted := fun _ => 0
      self := fun _ => false
      selfIsExecuting := fun _ => false
      completed := fun _ => 0
      place := fun _ => .fresh
      opened := fun _ => false
      calls := fun _ => []
      log := [] }
  stack
    | .worker _ => [.applyForWork false]
    | .caller _ => []

end Collection

end ThreadWeaver
