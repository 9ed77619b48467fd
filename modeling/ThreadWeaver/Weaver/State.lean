import ThreadWeaver.DependencyPolicy
import ThreadWeaver.Library.Insertion
import ThreadWeaver.Library.Run

/-!
# The state of the weaver

The data of `Weaver_Private`, what the weaver reads of the jobs in its queue, and where
each thread stands between two critical sections: the worker threads in `Thread::run` and
below it, the other threads in the calls that do more than one section.

A section executed under the weaver mutex is one step, and so is each read of the state
pointer outside of it.  Jobs are plain here; what a job does in `run` is the `Outcome` that
the setup gives for it, and the calls to the queue it makes there are steps of the same
kind as those of other threads.
-/

namespace ThreadWeaver

/-- `StateId`. -/
inductive StateId
  | inConstruction
  | workingHard
  | suspending
  | suspended
  | shuttingDown
  | destructed
  deriving DecidableEq, Repr

namespace Weaver

/-- How far a worker thread has got with the job it has been handed. -/
inductive Phase
  /-- `applyForWork` returned the job, the thread's `job` is not set yet -/
  | assigned
  /-- `job` is set, `execute` is about to begin -/
  | executing
  | running
  /-- the final status is set, `end` is about to be called -/
  | ending
  /-- in `freeQueuePolicyResources`, before the policy at the index -/
  | freeing (index : ℕ)
  /-- `execute` has returned, `job` is not cleared yet -/
  | returned
  deriving DecidableEq, Repr

/-- Where a worker thread stands. -/
inductive WorkerPc (J : Type*)
  /-- before `threadEnteredRun` -/
  | started
  /-- in `Weaver::applyForWork`, before the state pointer is read -/
  | applyForWork (wasBusy : Bool)
  /-- in `applyForWork` of the state object `id` -/
  | dispatched (id : StateId) (wasBusy : Bool)
  /-- in `Weaver::waitForAvailableJob`, before the state pointer is read -/
  | waitForAvailableJob (wasBusy : Bool)
  /-- before the section of `blockThreadUntilJobsAreBeingAssigned` -/
  | blockThread (wasBusy : Bool)
  /-- blocked in `jobAvailable.wait` -/
  | waiting (wasBusy : Bool)
  /-- woken, about to return from the wait -/
  | woken (wasBusy : Bool)
  | busy (job : J) (phase : Phase)
  | exited
  deriving DecidableEq, Repr

/-- A worker thread: its position and the number of activations of `Weaver::applyForWork`
it has entered and not returned from. -/
structure Worker (J : Type*) where
  pc : WorkerPc J
  activations : ℕ
  deriving Repr

/-- The rest of `Weaver::shutDown_p`. -/
inductive ShutDownPc
  | acquire
  | finish
  | suspend
  | setSuspending
  | setShuttingDown
  | reschedule
  | collect
  | join (thread : ℕ)
  | setDestructed
  deriving DecidableEq, Repr

/-- Where a thread that is not a worker stands in a call to the queue. -/
inductive CallerPc
  | idle
  /-- in `suspend` or `resume`, before the section of `setState` -/
  | setState (id : StateId)
  /-- it has changed queue policies and has to call `reschedule` -/
  | reschedule
  | finish
  | shutDown (rest : ShutDownPc)
  deriving DecidableEq, Repr

/-- One operation on the policies of jobs by the program. -/
inductive PolicyOp (J P ε : Type*)
  | assignQueuePolicy (job : J) (policy : P)
  | removeQueuePolicy (job : J) (policy : P)
  | call (call : ε)
  deriving DecidableEq, Repr

/-- What has happened, in order. -/
inductive Event (J P ε : Type*)
  | enqueued (job : J)
  | dequeued (job : J)
  | assigned (thread : ℕ) (job : J)
  /-- `defaultEnd` has run with this status -/
  | ended (job : J) (status : Status)
  | configured (ops : List (PolicyOp J P ε))
  | finished
  | suspended
  | stateChanged (id : StateId)
  | deleted (thread : ℕ)
  deriving DecidableEq, Repr

/-- `Weaver_Private`, the jobs as far as the weaver reads them, and the threads. -/
structure State (J P T σ ε : Type*) where
  assignments : List J
  active : ℤ
  inventory : List ℕ
  expiredThreads : List ℕ
  inventoryMax : ℕ
  createdThreads : ℕ
  semaphore : ℕ
  stateId : StateId
  status : J → Status
  shouldAbort : J → Bool
  queuePolicies : J → List P
  policyState : σ
  worker : ℕ → Worker J
  caller : T → CallerPc
  log : List (Event J P ε)

/-- A program that uses the weaver: the priorities and outcomes of its jobs, its policies,
and the jobs that the `aboutToBeDequeued` of a job takes out of the queue.  Every outcome
keeps the assertion after `run` in `Job::execute`, and a hook does not come back to the job
whose hook it is. -/
structure Setup (J P σ ε : Type*) where
  priority : J → ℤ
  outcome : J → Outcome
  outcome_isFinished : ∀ job, (outcome job).status.isFinished
  policies : QueuePolicies J P σ
  call : ε → σ → σ
  idealThreadCount : ℕ
  aboutToBeDequeued : J → List J
  hookRank : J → ℕ
  hookRank_lt : ∀ job other, other ∈ aboutToBeDequeued job → hookRank other < hookRank job

/-- Jobs whose priority is their number, and one policy that admits one of them at a time. -/
def numbered : Setup ℕ Unit (Unit → ℕ) Empty where
  priority job := job
  outcome _ := .returned
  outcome_isFinished _ := rfl
  policies := oneAtATime.policies
  call _ state := state
  idealThreadCount := 1
  aboutToBeDequeued _ := []
  hookRank _ := 0
  hookRank_lt _ _ h := absurd h List.not_mem_nil

variable {J P T σ ε : Type*}

/-- The end of the job has not run yet. -/
def Phase.beforeEnd : Phase → Bool
  | assigned | executing | running | ending => true
  | freeing _ | returned => false

/-- The job a thread has been handed and whose end has not run yet. -/
def WorkerPc.job? : WorkerPc J → Option J
  | busy job phase => if phase.beforeEnd then some job else none
  | _ => none

/-- The thread is in `run` of a job. -/
def WorkerPc.isRunning : WorkerPc J → Bool
  | busy _ .running => true
  | _ => false

/-- The `job` of the thread object. -/
def WorkerPc.currentJob? : WorkerPc J → Option J
  | busy job phase => if phase = .assigned then none else some job
  | _ => none

/-- What a program has set up before it uses the weaver: the policies of its jobs, none of
them twice, and the state of the policies. -/
structure Start (J P σ : Type*) where
  queuePolicies : J → List P
  nodup : ∀ job, (queuePolicies job).Nodup
  policyState : σ

/-- Jobs without policies. -/
def Start.plain (policyState : σ) : Start J P σ where
  queuePolicies _ := []
  nodup _ := List.nodup_nil
  policyState := policyState

/-- The state after `Weaver::Weaver`. -/
def init (S : Setup J P σ ε) (start : Start J P σ) : State J P T σ ε where
  assignments := []
  active := 0
  inventory := []
  expiredThreads := []
  inventoryMax := max 4 (2 * S.idealThreadCount)
  createdThreads := 0
  semaphore := 0
  stateId := .workingHard
  status _ := .new
  shouldAbort _ := false
  queuePolicies := start.queuePolicies
  policyState := start.policyState
  worker _ := ⟨.started, 0⟩
  caller _ := .idle
  log := []

/-- `canBeExecuted` would accept the job in this state. -/
def State.Accepts (S : Setup J P σ ε) (s : State J P T σ ε) (job : J) : Prop :=
  S.policies.Accepts (s.queuePolicies job) job s.policyState

instance (S : Setup J P σ ε) (s : State J P T σ ε) (job : J) : Decidable (s.Accepts S job) :=
  inferInstanceAs (Decidable (QueuePolicies.Accepts ..))

end Weaver

end ThreadWeaver
