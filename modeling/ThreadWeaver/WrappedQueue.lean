import ThreadWeaver.Collection.State
import ThreadWeaver.ExecuteWrapper
import ThreadWeaver.Library.Insertion

/-!
# The queue and the memory of its jobs

The functions of the queue and of collections that enqueue, dequeue and add jobs, with the
executors of each job as memory and with the decorators that jobs are known by.

`Intact` compares a queue with `once`, in which nothing but `addJob` has been called: jobs out of
the list are the same in both, and jobs in the list are those of `once` enqueued.  The counters
are left out, since `dequeueElements` subtracts every element that it finds; they never become
positive, and so a collection in the list is never cleaned up.
-/

namespace ThreadWeaver

open Collection (Kind)

/-! ## The queue -/

/-- A program as far as the queue sees it.  `I` are the objects that a `JobPointer` points to,
`J` the jobs among them: an object that is not a job decorates one.  A collection has a higher
rank than its elements. -/
structure Interfaces (I J : Type*) where
  decorated : I → J
  kind : J → Kind
  priority : J → ℤ
  rank : J → ℕ
  /-- how far a destructor follows a chain -/
  chainLength : ℕ

/-- What the queue and the collections read and write of one job. -/
structure JobMemory (I J A : Type*) where
  status : Status
  shouldAbort : Bool
  /-- the `BlockerPolicy` of its Sequence is assigned -/
  isBlocked : Bool
  elements : List I
  /-- `api` is set -/
  api : Bool
  jobCounter : ℤ
  jobsStarted : ℕ
  selfIsExecuting : Bool
  executors : ExecutorChain J A

/-- The list of the weaver, the jobs that workers have taken, the memory of the jobs, and the
collections whose queue policies `finalCleanup` has freed. -/
structure WrappedQueue (I J A : Type*) where
  assignments : List I
  assigned : J → Bool
  memory : J → JobMemory I J A
  freed : List J

namespace JobMemory

variable {I J A : Type*} (K : Interfaces I J)

/-- `aboutToBeQueued`, which does something in collections only. -/
def aboutToBeQueued (job : J) (number : ℕ) (m : JobMemory I J A) : JobMemory I J A :=
  if K.kind job = .plain then m
  else { m with api := true, executors := m.executors.aboutToBeQueued job number }

/-- The end of `Collection::aboutToBeDequeued_locked`. -/
def resetApi (m : JobMemory I J A) : JobMemory I J A :=
  { m with api := false, executors := m.executors.aboutToBeDequeued K.chainLength }

/-- The two agree on all but `shouldAbort`, the blocker and the counter. -/
structure Alike (m m' : JobMemory I J A) : Prop where
  status : m.status = m'.status
  elements : m.elements = m'.elements
  api : m.api = m'.api
  jobsStarted : m.jobsStarted = m'.jobsStarted
  selfIsExecuting : m.selfIsExecuting = m'.selfIsExecuting
  executors : m.executors = m'.executors

/-- The job has not been enqueued. -/
structure IsBare (m : JobMemory I J A) : Prop where
  status : m.status = .new
  api : m.api = false
  jobsStarted : m.jobsStarted = 0
  selfIsExecuting : m.selfIsExecuting = false
  selfWrapped : m.executors.selfWrapped = none

end JobMemory

namespace WrappedQueue

variable {I J A : Type*} [DecidableEq I] [DecidableEq J] (K : Interfaces I J)

def modify (job : J) (f : JobMemory I J A → JobMemory I J A) (q : WrappedQueue I J A) :
    WrappedQueue I J A :=
  { q with memory := Function.update q.memory job (f (q.memory job)) }

/-- The body of the loop of `Weaver::enqueue_p`.  The wrapper of a collection is allocated at
the address `number`. -/
def enqueueJob (pointer : I) (number : ℕ) (q : WrappedQueue I J A) : WrappedQueue I J A :=
  let q := q.modify (K.decorated pointer) (·.aboutToBeQueued K (K.decorated pointer) number)
  let q := { q with
    assignments :=
      Library.insertFromBack (fun other => K.priority (K.decorated other)) pointer q.assignments }
  q.modify (K.decorated pointer) ({ · with status := .queued })

/-- `Collection_Private::finalCleanup`. -/
def finalCleanup (collection : J) (q : WrappedQueue I J A) : WrappedQueue I J A :=
  let q := q.modify collection fun m =>
    { m with
      status :=
        if m.shouldAbort then .aborted
        else if m.status.toNat < Status.success.toNat then .success
        else m.status
      api := false }
  { q with freed := q.freed ++ [collection] }

/-- One turn of the loop of `Collection_Private::dequeueElements`, under the weaver mutex. -/
def dequeueElement (dequeue : I → WrappedQueue I J A → Bool × WrappedQueue I J A)
    (collection : J) (element : I) (q : WrappedQueue I J A) : WrappedQueue I J A :=
  let result := dequeue element q
  let q := if result.1 then
      result.2.modify collection fun m => { m with jobCounter := m.jobCounter - 1 }
    else result.2
  -- `elementDequeued`
  if K.kind collection = .sequence then
    q.modify (K.decorated element) ({ · with isBlocked := false })
  else q

/-- `Collection_Private::dequeueElements`. -/
def dequeueElements (dequeue : I → WrappedQueue I J A → Bool × WrappedQueue I J A)
    (collection : J) (q : WrappedQueue I J A) : WrappedQueue I J A :=
  if (q.memory collection).api then
    let q := (q.memory collection).elements.foldl
      (fun q element => q.dequeueElement K dequeue collection element) q
    if (q.memory collection).jobCounter = 1 then q.finalCleanup collection else q
  else q

/-- `aboutToBeDequeued`, which does something in collections only. -/
def aboutToBeDequeued (dequeue : I → WrappedQueue I J A → Bool × WrappedQueue I J A) (job : J)
    (q : WrappedQueue I J A) : WrappedQueue I J A :=
  if K.kind job = .plain then q
  else (q.dequeueElements K dequeue job).modify job (·.resetApi K)

/-- The end of `dequeue_p(JobPointer)`. -/
def takeAt (pointer : I) (q : WrappedQueue I J A) : WrappedQueue I J A :=
  { q with assignments := q.assignments.erase pointer }.modify (K.decorated pointer)
    ({ · with status := .new })

/-- `Weaver::dequeue_p(JobPointer)`, with hooks nested up to the given depth. -/
def dequeueNested : ℕ → I → WrappedQueue I J A → Bool × WrappedQueue I J A
  | depth, pointer, q =>
      if pointer ∈ q.assignments then
        (true, takeAt K pointer <|
          match depth with
          | 0 => q
          | depth + 1 => q.aboutToBeDequeued K (dequeueNested depth) (K.decorated pointer))
      else (false, q)

/-- `Weaver::dequeue_p(JobPointer)`. -/
def dequeueP (pointer : I) (q : WrappedQueue I J A) : Bool × WrappedQueue I J A :=
  dequeueNested K (K.rank (K.decorated pointer) + 1) pointer q

/-- `Collection::addJob`.  The wrapper is allocated at the address `number`. -/
def addJob (collection : J) (pointer : I) (number : ℕ) (q : WrappedQueue I J A) :
    WrappedQueue I J A :=
  let q := q.modify (K.decorated pointer) fun m =>
    { m with executors := m.executors.addedTo collection number }
  q.modify collection fun m => { m with elements := m.elements ++ [pointer] }

/-! ## Runs -/

/-- What changes the queue and the jobs.  `work` is everything else that the workers and the
program do. -/
inductive Act (I J A : Type*)
  | enqueue (pointer : I) (number : ℕ)
  | dequeue (pointer : I)
  | addJob (collection : J) (pointer : I) (number : ℕ)
  /-- a worker takes a job out of the list -/
  | assign (pointer : I)
  | work (next : WrappedQueue I J A)

/-- The job is in the list, by one of its pointers. -/
def Queued (q : WrappedQueue I J A) (job : J) : Prop :=
  ∃ pointer ∈ q.assignments, K.decorated pointer = job

/-- One of these steps.

* Only jobs in `Status_New` are enqueued.
* `addJob` asserts that the collection is not queued, or executing itself.  The chain of a job in
  the list is not changed, and no collection is added to itself.
* `work` leaves the list and the chains alone.  Workers work on the jobs that they have taken: an
  element that is executed before its collection finds `self` null, against the assert of
  `elementStarted`. -/
def step (q : WrappedQueue I J A) : Act I J A → WrappedQueue I J A → Prop
  | .enqueue pointer number, next =>
      (q.memory (K.decorated pointer)).status = .new ∧
        (q.memory (K.decorated pointer)).executors.heap number = none ∧
        next = q.enqueueJob K pointer number
  | .dequeue pointer, next => next = (q.dequeueP K pointer).2
  | .addJob collection pointer number, next =>
      ((q.memory collection).api = false ∨ (q.memory collection).selfIsExecuting = true) ∧
        K.kind collection ≠ .plain ∧ ¬ q.Queued K (K.decorated pointer) ∧
        K.rank (K.decorated pointer) < K.rank collection ∧
        (q.memory (K.decorated pointer)).executors.heap number = none ∧
        next = q.addJob K collection pointer number
  | .assign pointer, next => pointer ∈ q.assignments ∧
      next = { q with
        assignments := q.assignments.erase pointer
        assigned := Function.update q.assigned (K.decorated pointer) true }
  | .work changed, next => next = changed ∧ changed.assignments = q.assignments ∧
      changed.assigned = q.assigned ∧
      ∀ job, (changed.memory job).executors = (q.memory job).executors ∧
        (changed.memory job).elements = (q.memory job).elements ∧
        if q.assigned job then (changed.memory job).status ≠ .new
        else (changed.memory job).Alike (q.memory job) ∧
          (changed.memory job).jobCounter = (q.memory job).jobCounter

/-- The runs whose steps satisfy `ok`, with what has been done. -/
inductive Runs (ok : WrappedQueue I J A → Act I J A → WrappedQueue I J A → Prop)
    (start : WrappedQueue I J A) : List (Act I J A) → WrappedQueue I J A → Prop
  | refl : Runs ok start [] start
  | tail {acts : List (Act I J A)} {act : Act I J A} {q next : WrappedQueue I J A} :
      Runs ok start acts q → q.step K act next → ok q act next →
      Runs ok start (acts ++ [act]) next

/-- A call of `addJob`. -/
def Act.isAddJob : Act I J A → Bool
  | addJob _ _ _ => true
  | _ => false

/-- The act puts a wrapper around the executors of the job. -/
def Act.Wraps (job : J) : Act I J A → Prop
  | addJob _ pointer _ => K.decorated pointer = job
  | _ => False

/-- Nothing has been enqueued.  The chains of the jobs are any. -/
structure IsFresh (q : WrappedQueue I J A) : Prop where
  assignments : q.assignments = []
  assigned : ∀ job, q.assigned job = false
  bare : ∀ job, (q.memory job).IsBare
  jobCounter : ∀ job, (q.memory job).jobCounter = 0
  elements_plain : ∀ job, K.kind job = .plain → (q.memory job).elements = []
  rank_lt : ∀ collection, ∀ element ∈ (q.memory collection).elements,
    K.rank (K.decorated element) < K.rank collection

end WrappedQueue

/-! ## The memory of one job -/

namespace JobMemory

variable {I J A : Type*} {K : Interfaces I J} {m m' m'' : JobMemory I J A} {job : J} {number : ℕ}

theorem Alike.refl (m : JobMemory I J A) : m.Alike m :=
  ⟨rfl, rfl, rfl, rfl, rfl, rfl⟩

theorem Alike.trans (h : m.Alike m') (h' : m'.Alike m'') : m.Alike m'' where
  status := h.status.trans h'.status
  elements := h.elements.trans h'.elements
  api := h.api.trans h'.api
  jobsStarted := h.jobsStarted.trans h'.jobsStarted
  selfIsExecuting := h.selfIsExecuting.trans h'.selfIsExecuting
  executors := h.executors.trans h'.executors

/-- The job after it has been enqueued. -/
def enqueued (K : Interfaces I J) (job : J) (number : ℕ) (m : JobMemory I J A) :
    JobMemory I J A :=
  { m.aboutToBeQueued K job number with status := .queued }

theorem Alike.enqueued (h : m.Alike m') (job : J) (number : ℕ) :
    (m.enqueued K job number).Alike (m'.enqueued K job number) := by
  unfold JobMemory.enqueued aboutToBeQueued
  split
  · exact { h with status := rfl }
  · exact { h with status := rfl, api := rfl, executors := by rw [h.executors] }

@[simp] theorem enqueued_status : (m.enqueued K job number).status = .queued := rfl

@[simp] theorem enqueued_jobCounter : (m.enqueued K job number).jobCounter = m.jobCounter := by
  unfold enqueued aboutToBeQueued
  split <;> rfl

@[simp] theorem enqueued_elements : (m.enqueued K job number).elements = m.elements := by
  unfold enqueued aboutToBeQueued
  split <;> rfl

@[simp] theorem enqueued_selfIsExecuting :
    (m.enqueued K job number).selfIsExecuting = m.selfIsExecuting := by
  unfold enqueued aboutToBeQueued
  split <;> rfl

theorem enqueued_api (hkind : K.kind job ≠ .plain) : (m.enqueued K job number).api = true := by
  simp [enqueued, aboutToBeQueued, hkind]

/-- An address that is free after the job has been enqueued was free before. -/
theorem heap_of_enqueued {other : ℕ}
    (h : (m.enqueued K job number).executors.heap other = none) :
    m.executors.heap other = none := by
  unfold enqueued aboutToBeQueued at h
  split at h
  · exact h
  · by_cases hother : other = number
    · subst hother
      simp [(ExecutorChain.executor_aboutToBeQueued job other m.executors).2] at h
    · simpa [ExecutorChain.aboutToBeQueued, ExecutorChain.wrap, ExecutorChain.setExecutor,
        ExecutorChain.setWrapped, ExecutorChain.newWrapper, Function.update_of_ne hother] using h

/-- **A job that is dequeued is as it was before it was enqueued.** -/
theorem Alike.dequeued (h : m.Alike (m'.enqueued K job number)) (hbare : m'.IsBare)
    (hnew : m'.executors.heap number = none) :
    JobMemory.Alike { (if K.kind job = .plain then m else m.resetApi K) with status := .new }
      m' := by
  by_cases hkind : K.kind job = .plain
  · rw [if_pos hkind]
    rw [JobMemory.enqueued, aboutToBeQueued, if_pos hkind] at h
    exact { h with status := hbare.status.symm }
  · rw [if_neg hkind]
    rw [JobMemory.enqueued, aboutToBeQueued, if_neg hkind] at h
    refine { h with
      status := hbare.status.symm
      api := hbare.api.symm
      executors := ?_ }
    calc (m.resetApi K).executors
        = (m'.executors.aboutToBeQueued job number).aboutToBeDequeued K.chainLength :=
          congrArg (ExecutorChain.aboutToBeDequeued K.chainLength) h.executors
      _ = m'.executors :=
          ExecutorChain.aboutToBeDequeued_aboutToBeQueued job _ hbare.selfWrapped hnew

end JobMemory

/-! ## What the functions of the queue do -/

namespace WrappedQueue

variable {I J A : Type*} {K : Interfaces I J} {once q mid next : WrappedQueue I J A}
  {job other collection : J} {pointer : I} {number : ℕ}

/-- Nothing but `addJob` has been done to the jobs that no worker has taken, as far as one can
tell from them, if `once` is what `addJob` alone would have made of them. -/
structure Intact (K : Interfaces I J) (once q : WrappedQueue I J A) : Prop where
  nodup : (q.assignments.map K.decorated).Nodup
  unassigned : ∀ job, q.Queued K job → q.assigned job = false
  taken : ∀ job, q.assigned job = true → (q.memory job).status ≠ .new
  elements : ∀ job, (q.memory job).elements = (once.memory job).elements
  heap : ∀ job number, (q.memory job).executors.heap number = none →
    (once.memory job).executors.heap number = none
  queued : ∀ job, q.Queued K job → ∃ number,
    (once.memory job).executors.heap number = none ∧
      (q.memory job).Alike ((once.memory job).enqueued K job number)
  bare : ∀ job, ¬ q.Queued K job → q.assigned job = false →
    (q.memory job).Alike (once.memory job)
  jobCounter : ∀ job, q.assigned job = false → (q.memory job).jobCounter ≤ 0

namespace Intact

theorem refl (h : q.IsFresh K) : Intact K q q := by
  have hnone : ∀ job, ¬ q.Queued K job := by simp [Queued, h.assignments]
  exact {
    nodup := by simp [h.assignments]
    unassigned := fun job _ => h.assigned job
    taken := fun job hjob => by simp [h.assigned job] at hjob
    elements := fun _ => rfl
    heap := fun _ _ h => h
    queued := fun job hjob => absurd hjob (hnone job)
    bare := fun job _ _ => .refl _
    jobCounter := fun job _ => (h.jobCounter job).le }

/-- It is kept by what leaves the list alone and changes no job but in what `Alike` leaves
out. -/
theorem of_alike (h : Intact K once q) (hlist : next.assignments = q.assignments)
    (hassigned : next.assigned = q.assigned)
    (halike : ∀ job, (next.memory job).Alike (q.memory job) ∧
      (next.memory job).jobCounter ≤ (q.memory job).jobCounter) : Intact K once next := by
  have hqueued : ∀ job, next.Queued K job ↔ q.Queued K job := by simp [Queued, hlist]
  exact {
    nodup := hlist ▸ h.nodup
    unassigned := fun job hjob => hassigned ▸ h.unassigned job ((hqueued job).mp hjob)
    taken := fun job hjob => (halike job).1.status ▸ h.taken job (hassigned ▸ hjob)
    elements := fun job => (halike job).1.elements.trans (h.elements job)
    heap := fun job number hnone => h.heap job number ((halike job).1.executors ▸ hnone)
    queued := fun job hjob =>
      let ⟨number, hnew, hjob⟩ := h.queued job ((hqueued job).mp hjob)
      ⟨number, hnew, (halike job).1.trans hjob⟩
    bare := fun job hjob hfree =>
      (halike job).1.trans (h.bare job (mt (hqueued job).mpr hjob) (hassigned ▸ hfree))
    jobCounter := fun job hfree =>
      (halike job).2.trans (h.jobCounter job (hassigned ▸ hfree)) }

/-- A job in `Status_New` is neither in the list nor in the hands of a worker. -/
theorem free_of_new (h : Intact K once q) (hnew : (q.memory job).status = .new) :
    ¬ q.Queued K job ∧ q.assigned job = false := by
  constructor
  · intro hjob
    obtain ⟨number, -, halike⟩ := h.queued job hjob
    have hstatus := halike.status
    rw [hnew] at hstatus
    cases hstatus
  · by_contra htaken
    exact h.taken job (by simpa using htaken) hnew

end Intact

section Modify

variable [DecidableEq J]

@[simp] theorem modify_assignments (job : J) (f : JobMemory I J A → JobMemory I J A)
    (q : WrappedQueue I J A) : (q.modify job f).assignments = q.assignments := rfl

@[simp] theorem modify_assigned (job : J) (f : JobMemory I J A → JobMemory I J A)
    (q : WrappedQueue I J A) : (q.modify job f).assigned = q.assigned := rfl

@[simp] theorem modify_self (job : J) (f : JobMemory I J A → JobMemory I J A)
    (q : WrappedQueue I J A) : (q.modify job f).memory job = f (q.memory job) :=
  Function.update_self ..

@[simp] theorem modify_of_ne (hne : other ≠ job) (f : JobMemory I J A → JobMemory I J A)
    (q : WrappedQueue I J A) : (q.modify job f).memory other = q.memory other :=
  Function.update_of_ne hne ..

@[simp] theorem enqueueJob_self :
    (q.enqueueJob K pointer number).memory (K.decorated pointer) =
      (q.memory (K.decorated pointer)).enqueued K (K.decorated pointer) number := by
  simp [enqueueJob, modify, JobMemory.enqueued]

@[simp] theorem enqueueJob_of_ne (hne : other ≠ K.decorated pointer) :
    (q.enqueueJob K pointer number).memory other = q.memory other := by
  simp [enqueueJob, modify, Function.update_of_ne hne]

theorem queued_enqueueJob :
    (q.enqueueJob K pointer number).Queued K other ↔
      other = K.decorated pointer ∨ q.Queued K other := by
  simp only [Queued, enqueueJob, modify, Library.mem_insertFromBack, or_and_right, exists_or,
    exists_eq_left]
  exact or_congr_left eq_comm

theorem Intact.enqueueJob (h : Intact K once q)
    (hnew : (q.memory (K.decorated pointer)).status = .new)
    (hheap : (q.memory (K.decorated pointer)).executors.heap number = none) :
    Intact K once (q.enqueueJob K pointer number) := by
  obtain ⟨hnot, hfree⟩ := h.free_of_new hnew
  have hassigned : (q.enqueueJob K pointer number).assigned = q.assigned := rfl
  have hbare := h.bare _ hnot hfree
  refine ⟨?_, fun job hjob => ?_, fun job hjob => ?_, fun job => ?_, fun job other hnone => ?_,
    fun job hjob => ?_, fun job hjob hjobfree => ?_, fun job hjobfree => ?_⟩
  · have hperm : (q.enqueueJob K pointer number).assignments.Perm (pointer :: q.assignments) :=
      Library.insertFromBack_perm _ pointer q.assignments
    rw [(hperm.map K.decorated).nodup_iff, List.map_cons, List.nodup_cons]
    refine ⟨fun hmem => ?_, h.nodup⟩
    obtain ⟨held, hheld, heq⟩ := List.mem_map.mp hmem
    exact hnot ⟨held, hheld, heq⟩
  · rcases queued_enqueueJob.mp hjob with rfl | hjob
    · exact hfree
    · exact h.unassigned job hjob
  · have hne : job ≠ K.decorated pointer := by
      rintro rfl
      rw [hassigned, hfree] at hjob
      cases hjob
    rw [enqueueJob_of_ne hne]
    exact h.taken job hjob
  · by_cases hne : job = K.decorated pointer
    · subst hne
      rw [enqueueJob_self, JobMemory.enqueued_elements]
      exact h.elements _
    · rw [enqueueJob_of_ne hne]
      exact h.elements job
  · by_cases hne : job = K.decorated pointer
    · subst hne
      rw [enqueueJob_self] at hnone
      exact h.heap _ other (JobMemory.heap_of_enqueued hnone)
    · rw [enqueueJob_of_ne hne] at hnone
      exact h.heap job other hnone
  · by_cases hne : job = K.decorated pointer
    · subst hne
      refine ⟨number, h.heap _ number hheap, ?_⟩
      rw [enqueueJob_self]
      exact hbare.enqueued _ number
    · rw [enqueueJob_of_ne hne]
      exact h.queued job ((queued_enqueueJob.mp hjob).resolve_left hne)
  · have hne : job ≠ K.decorated pointer := fun heq => hjob (queued_enqueueJob.mpr (.inl heq))
    rw [enqueueJob_of_ne hne]
    exact h.bare job (fun hqueued => hjob (queued_enqueueJob.mpr (.inr hqueued))) hjobfree
  · by_cases hne : job = K.decorated pointer
    · subst hne
      rw [enqueueJob_self, JobMemory.enqueued_jobCounter]
      exact h.jobCounter _ hjobfree
    · rw [enqueueJob_of_ne hne]
      exact h.jobCounter job hjobfree

theorem addJob_memory (hne : K.decorated pointer ≠ collection) (job : J) :
    (q.addJob K collection pointer number).memory job =
      { q.memory job with
        executors :=
          if job = K.decorated pointer then (q.memory job).executors.addedTo collection number
          else (q.memory job).executors
        elements :=
          (q.memory job).elements ++ if job = collection then [pointer] else [] } := by
  unfold addJob
  by_cases hjob : job = K.decorated pointer
  · subst hjob
    simp [hne]
  · by_cases hcollection : job = collection
    · subst hcollection
      simp [hjob]
    · simp [hjob, hcollection]

theorem IsFresh.addJob (h : q.IsFresh K) (hkind : K.kind collection ≠ .plain)
    (hrank : K.rank (K.decorated pointer) < K.rank collection) :
    (q.addJob K collection pointer number).IsFresh K := by
  have hne : K.decorated pointer ≠ collection := by
    rintro rfl
    omega
  refine ⟨h.assignments, h.assigned, fun job => ?_, fun job => ?_, fun job hplain => ?_,
    fun job element helement => ?_⟩
  · rw [addJob_memory hne]
    refine { h.bare job with selfWrapped := ?_ }
    dsimp only
    split
    · exact (h.bare job).selfWrapped
    · exact (h.bare job).selfWrapped
  · rw [addJob_memory hne]
    exact h.jobCounter job
  · rw [addJob_memory hne]
    have hother : job ≠ collection := by
      rintro rfl
      exact hkind hplain
    simp [hother, h.elements_plain job hplain]
  · rw [addJob_memory hne] at helement
    rcases List.mem_append.mp helement with helement | helement
    · exact h.rank_lt job element helement
    · split at helement
      · rename_i heq
        rw [List.mem_singleton.mp helement, heq]
        exact hrank
      · cases helement

/-- `addJob` does the same to the jobs that no worker has taken as if nothing had been
enqueued. -/
theorem Intact.addJob (h : Intact K once q) (hne : K.decorated pointer ≠ collection)
    (hpointer : ¬ q.Queued K (K.decorated pointer)) (hcollection : ¬ q.Queued K collection) :
    Intact K (once.addJob K collection pointer number)
      (q.addJob K collection pointer number) := by
  have hqueued : ∀ job, (q.addJob K collection pointer number).Queued K job ↔ q.Queued K job :=
    fun _ => .rfl
  refine ⟨h.nodup, h.unassigned, fun job hjob => ?_, fun job => ?_, fun job other hnone => ?_,
    fun job hjob => ?_, fun job hjob hfree => ?_, fun job hfree => ?_⟩
  · rw [addJob_memory hne]
    exact h.taken job hjob
  · simp only [addJob_memory hne, h.elements]
  · rw [addJob_memory hne] at hnone ⊢
    dsimp only at hnone ⊢
    split at hnone
    · rename_i heq
      rw [if_pos heq]
      obtain ⟨hother, hnone⟩ := ExecutorChain.heap_addedTo.mp hnone
      exact ExecutorChain.heap_addedTo.mpr ⟨hother, h.heap job other hnone⟩
    · rename_i heq
      rw [if_neg heq]
      exact h.heap job other hnone
  · have hjob' : q.Queued K job := (hqueued job).mp hjob
    have hnotpointer : job ≠ K.decorated pointer := fun heq => hpointer (heq ▸ hjob')
    have hnotcollection : job ≠ collection := fun heq => hcollection (heq ▸ hjob')
    simpa [addJob_memory hne, hnotpointer, hnotcollection] using h.queued job hjob'
  · have hbare := h.bare job (mt (hqueued job).mpr hjob) hfree
    simp only [addJob_memory hne]
    exact { hbare with
      elements := by simp only [hbare.elements]
      executors := by simp only [hbare.executors] }
  · rw [addJob_memory hne]
    exact h.jobCounter job hfree

end Modify

variable [DecidableEq I]

/-- The job of a pointer is the only one that leaves the list with it. -/
theorem queued_erase (hnodup : (q.assignments.map K.decorated).Nodup)
    (hmem : pointer ∈ q.assignments) (hlist : next.assignments = q.assignments.erase pointer) :
    next.Queued K other ↔ q.Queued K other ∧ other ≠ K.decorated pointer := by
  constructor
  · rintro ⟨held, hheld, rfl⟩
    rw [hlist] at hheld
    have hmem' : held ∈ q.assignments := List.mem_of_mem_erase hheld
    refine ⟨⟨held, hmem', rfl⟩, fun heq => ?_⟩
    obtain rfl : held = pointer := List.inj_on_of_nodup_map hnodup hmem' hmem heq
    exact (hnodup.of_map _).not_mem_erase hheld
  · rintro ⟨⟨held, hheld, rfl⟩, hne⟩
    refine ⟨held, ?_, rfl⟩
    rw [hlist]
    exact (List.mem_erase_of_ne fun heq => hne (congrArg K.decorated heq)).mpr hheld

/-- It is kept when a job leaves the list and is as `addJob` alone would have left it. -/
theorem Intact.leave (h : Intact K once q) (hmem : pointer ∈ q.assignments)
    (hlist : next.assignments = q.assignments.erase pointer)
    (hassigned : next.assigned = q.assigned)
    (hother : ∀ job ≠ K.decorated pointer, next.memory job = q.memory job)
    (hself : (next.memory (K.decorated pointer)).Alike (once.memory (K.decorated pointer)))
    (hcounter : (next.memory (K.decorated pointer)).jobCounter ≤
      (q.memory (K.decorated pointer)).jobCounter) : Intact K once next := by
  have hqueued : ∀ job, next.Queued K job ↔ q.Queued K job ∧ job ≠ K.decorated pointer :=
    fun job => queued_erase h.nodup hmem hlist
  have hfree : q.assigned (K.decorated pointer) = false := h.unassigned _ ⟨pointer, hmem, rfl⟩
  refine ⟨?_, fun job hjob => ?_, fun job hjob => ?_, fun job => ?_, fun job other hnone => ?_,
    fun job hjob => ?_, fun job hjob hjobfree => ?_, fun job hjobfree => ?_⟩
  · rw [hlist]
    exact h.nodup.sublist (List.erase_sublist.map _)
  · rw [hassigned]
    exact h.unassigned job ((hqueued job).mp hjob).1
  · rw [hassigned] at hjob
    rw [hother job fun heq => by simp [heq, hfree] at hjob]
    exact h.taken job hjob
  · by_cases hne : job = K.decorated pointer
    · exact hne ▸ hself.elements
    · rw [hother job hne]
      exact h.elements job
  · by_cases hne : job = K.decorated pointer
    · subst hne
      exact hself.executors ▸ hnone
    · exact h.heap job other (hother job hne ▸ hnone)
  · obtain ⟨hjob, hne⟩ := (hqueued job).mp hjob
    rw [hother job hne]
    exact h.queued job hjob
  · by_cases hne : job = K.decorated pointer
    · exact hne ▸ hself
    · rw [hother job hne]
      exact h.bare job (fun hjob' => hjob ((hqueued job).mpr ⟨hjob', hne⟩)) (hassigned ▸ hjobfree)
  · by_cases hne : job = K.decorated pointer
    · subst hne
      exact hcounter.trans (h.jobCounter _ hfree)
    · rw [hother job hne]
      exact h.jobCounter job (hassigned ▸ hjobfree)

end WrappedQueue

end ThreadWeaver
