import Mathlib.Data.Finset.Lattice.Fold
import ThreadWeaver.Job
import ThreadWeaver.Library.Insertion
import ThreadWeaver.Library.Run

/-!
# Dequeueing all jobs

`Weaver::dequeue()` calls the hook of every job in the list and clears the list at the end;
`dequeue(job)` calls the hook of one job and takes that job out.  A hook may dequeue further
jobs, and the hook of a collection dequeues its elements, so the list can shrink under the
loop.

`JobQueue` is what the two leave behind: the list, the statuses, and for collections `api`,
the counter and the chain of executors.  The loop never sets a status, so that the last job it
comes to keeps the status it was queued with: only on the empty queue the two agree
(`dequeueAll_agrees_iff`).
-/

namespace ThreadWeaver

/-- An executor of a job.  The executors of a job are a chain, the outermost first, each with a
pointer to the next one. -/
inductive Executor (J : Type*)
  | default
  /-- the `CollectionExecuteWrapper` of a collection -/
  | collection (collection : J)
  /-- the `CollectionSelfExecuteWrapper` of a collection -/
  | self (collection : J)
  deriving DecidableEq, Repr

/-- A program as far as `dequeue` sees it: its jobs, with the elements of those that are
collections, and the jobs that the `aboutToBeDequeued` of a job dequeues before it does what
that of its class does.  No hook comes back to the job whose hook it is. -/
structure Hooks (J : Type*) where
  isCollection : J → Bool
  isSequence : J → Bool
  elements : J → List J
  aboutToBeDequeued : J → List J
  priority : J → ℤ
  rank : J → ℕ
  rank_lt_of_hook : ∀ job other, other ∈ aboutToBeDequeued job → rank other < rank job
  rank_lt_of_element : ∀ collection job, job ∈ elements collection → rank job < rank collection

/-- The list of the weaver, and of each job what the queue and the hooks read and write.
`called` lists the jobs whose `aboutToBeDequeued` has been called, `freed` those whose queue
policies have been freed. -/
structure JobQueue (J : Type*) where
  assignments : List J
  status : J → Status
  shouldAbort : J → Bool
  isBlocked : J → Bool
  api : J → Bool
  jobCounter : J → ℤ
  executors : J → List (Executor J)
  called : List J
  freed : List J

namespace JobQueue

variable {J : Type*} [DecidableEq J] (H : Hooks J)

/-! ## The functions of the queue -/

def setStatus (job : J) (status : Status) (q : JobQueue J) : JobQueue J :=
  { q with status := Function.update q.status job status }

/-- `aboutToBeQueued`, which does something in collections only. -/
def aboutToBeQueued (job : J) (q : JobQueue J) : JobQueue J :=
  if H.isCollection job then
    { q with
      api := Function.update q.api job true
      executors := Function.update q.executors job
        (.collection job :: .self job :: q.executors job) }
  else q

/-- The body of the loop of `enqueue_p`. -/
def enqueueJob (job : J) (q : JobQueue J) : JobQueue J :=
  let q := q.aboutToBeQueued H job
  setStatus job .queued
    { q with assignments := Library.insertFromBack H.priority job q.assignments }

/-- `Collection_Private::finalCleanup`. -/
def finalCleanup (collection : J) (q : JobQueue J) : JobQueue J :=
  let status :=
    if q.shouldAbort collection then .aborted
    else if (q.status collection).toNat < Status.success.toNat then .success
    else q.status collection
  { q.setStatus collection status with
    freed := q.freed ++ [collection]
    api := Function.update q.api collection false }

/-- One turn of the loop of `Collection_Private::dequeueElements`, under the weaver mutex. -/
def dequeueElement (dequeue : J → JobQueue J → Bool × JobQueue J) (collection element : J)
    (q : JobQueue J) : JobQueue J :=
  let result := dequeue element q
  let q := if result.1 then
      { result.2 with
        jobCounter := Function.update result.2.jobCounter collection
          (result.2.jobCounter collection - 1) }
    else result.2
  -- `elementDequeued`
  if H.isSequence collection then
    { q with isBlocked := Function.update q.isBlocked element false }
  else q

/-- `Collection_Private::dequeueElements`. -/
def dequeueElements (dequeue : J → JobQueue J → Bool × JobQueue J) (collection : J)
    (q : JobQueue J) : JobQueue J :=
  if q.api collection then
    let q := (H.elements collection).foldl
      (fun q element => q.dequeueElement H dequeue collection element) q
    if q.jobCounter collection = 1 then q.finalCleanup collection else q
  else q

/-- `aboutToBeDequeued`.  That of a collection dequeues the elements, resets `api` and takes its
two executors off the chain. -/
def aboutToBeDequeued (dequeue : J → JobQueue J → Bool × JobQueue J) (job : J)
    (q : JobQueue J) : JobQueue J :=
  let q := { q with called := q.called ++ [job] }
  let q := (H.aboutToBeDequeued job).foldl (fun q other => (dequeue other q).2) q
  if H.isCollection job then
    let q := q.dequeueElements H dequeue job
    { q with
      api := Function.update q.api job false
      executors := Function.update q.executors job ((q.executors job).drop 2) }
  else q

/-- The end of `dequeue_p(JobPointer)`. -/
def takeAt (job : J) (q : JobQueue J) : JobQueue J :=
  setStatus job .new { q with assignments := q.assignments.erase job }

/-- `Weaver::dequeue_p(JobPointer)`, with hooks nested up to the given depth. -/
def dequeueNested : ℕ → J → JobQueue J → Bool × JobQueue J
  | depth, job, q =>
      if job ∈ q.assignments then
        (true, takeAt job <|
          match depth with
          | 0 => q
          | depth + 1 => q.aboutToBeDequeued H (dequeueNested depth) job)
      else (false, q)

/-- `Weaver::dequeue_p(JobPointer)`. -/
def dequeueP (job : J) (q : JobQueue J) : Bool × JobQueue J :=
  dequeueNested H (H.rank job + 1) job q

/-- The hook of a job, called by the queue. -/
def runHook (job : J) (q : JobQueue J) : JobQueue J :=
  q.aboutToBeDequeued H (dequeueNested H (H.rank job)) job

/-- The loop of `Weaver::dequeue_p()` over the positions of the list. -/
def dequeueLoop : ℕ → ℕ → JobQueue J → JobQueue J
  | 0, _, q => q
  | fuel + 1, index, q =>
      match q.assignments[index]? with
      | none => q
      | some job => dequeueLoop fuel (index + 1) (q.runHook H job)

/-- `Weaver::dequeue_p()`. -/
def dequeueAllP (q : JobQueue J) : JobQueue J :=
  { q.dequeueLoop H q.assignments.length 0 with assignments := [] }

/-- `dequeue(job)` for each job of a list. -/
def dequeueEach (jobs : List J) (q : JobQueue J) : JobQueue J :=
  jobs.foldl (fun q job => (q.dequeueP H job).2) q

/-! ## Reachable queues -/

/-- What changes the queue.  `work` is everything else that a program and its workers do: it
leaves the list alone, and of the jobs in it the status, `api` and the executors. -/
inductive Act (J : Type*)
  | enqueue (jobs : List J)
  | dequeue (job : J)
  | dequeueAll
  /-- a worker takes a job out of the list -/
  | assign (job : J)
  | work (next : JobQueue J)

/-- One of these steps.  Only jobs in `Status_New` are enqueued, none of them twice. -/
def step (q : JobQueue J) : Act J → JobQueue J → Prop
  | .enqueue jobs, next => jobs.Nodup ∧ (∀ job ∈ jobs, q.status job = .new) ∧
      next = jobs.foldl (fun q job => q.enqueueJob H job) q
  | .dequeue job, next => next = (q.dequeueP H job).2
  | .dequeueAll, next => next = q.dequeueAllP H
  | .assign job, next => next = { q with assignments := q.assignments.erase job }
  | .work changed, next => next = changed ∧ changed.assignments = q.assignments ∧
      ∀ job ∈ q.assignments, changed.status job = q.status job ∧ changed.api job = q.api job ∧
        changed.executors job = q.executors job

/-- The queues that a program can get to, from an empty one on. -/
inductive Reachable : JobQueue J → Prop
  | start {q : JobQueue J} : q.assignments = [] → Reachable q
  | step {q next : JobQueue J} {action : Act J} : Reachable q → q.step H action next →
      Reachable next

/-- `dequeue()` agrees with dequeueing the jobs one by one: it calls every hook once, leaves every
job in `Status_New`, and the list, the statuses and the collections as the calls one by one do. -/
structure Agrees (q : JobQueue J) : Prop where
  called : ∀ job ∈ q.assignments,
    (q.dequeueAllP H).called.count job = q.called.count job + 1
  isNew : ∀ job ∈ q.assignments, (q.dequeueAllP H).status job = .new
  assignments : (q.dequeueAllP H).assignments = (q.dequeueEach H q.assignments).assignments
  status : (q.dequeueAllP H).status = (q.dequeueEach H q.assignments).status
  api : (q.dequeueAllP H).api = (q.dequeueEach H q.assignments).api
  executors : (q.dequeueAllP H).executors = (q.dequeueEach H q.assignments).executors

/-! ## What dequeueing does -/

variable {H} {q mid next : JobQueue J}

/-- Jobs have been dequeued, none of them of rank `bound` or higher: those that are gone are in
`Status_New`, those that are left are not, if they were not before, and jobs outside of the list
keep their status. -/
structure Dequeues (H : Hooks J) (bound : ℕ) (next q : JobQueue J) : Prop where
  sublist : next.assignments.Sublist q.assignments
  kept : ∀ job ∈ q.assignments, bound ≤ H.rank job → job ∈ next.assignments
  left : ∀ job ∈ next.assignments, q.status job ≠ .new → next.status job ≠ .new
  gone : ∀ job ∈ q.assignments, job ∉ next.assignments → next.status job = .new
  outside : ∀ job, job ∉ q.assignments → next.status job = q.status job

namespace Dequeues

variable {bound higher : ℕ}

omit [DecidableEq J] in
theorem refl (bound : ℕ) (q : JobQueue J) : Dequeues H bound q q :=
  ⟨.refl _, fun _ h _ => h, fun _ _ h => h, fun _ h hnot => absurd h hnot, fun _ _ => rfl⟩

omit [DecidableEq J] in
theorem mono (h : Dequeues H bound next q) (hbound : bound ≤ higher) :
    Dequeues H higher next q :=
  { h with kept := fun job hjob hrank => h.kept job hjob (hbound.trans hrank) }

omit [DecidableEq J] in
theorem trans (hnext : Dequeues H bound next mid) (hmid : Dequeues H bound mid q) :
    Dequeues H bound next q where
  sublist := hnext.sublist.trans hmid.sublist
  kept job hjob hrank := hnext.kept job (hmid.kept job hjob hrank) hrank
  left job hjob hstatus := hnext.left job hjob (hmid.left job (hnext.sublist.subset hjob) hstatus)
  gone job hjob hnot := by
    by_cases hleft : job ∈ mid.assignments
    · exact hnext.gone job hleft hnot
    · rw [hnext.outside job hleft, hmid.gone job hjob hleft]
  outside job hnot := by
    rw [hnext.outside job fun hmem => hnot (hmid.sublist.subset hmem), hmid.outside job hnot]

omit [DecidableEq J] in
/-- A fold of such steps. -/
theorem foldl {α : Type*} {f : JobQueue J → α → JobQueue J} {xs : List α}
    (hf : ∀ x ∈ xs, ∀ q : JobQueue J, q.assignments.Nodup → Dequeues H bound (f q x) q)
    {q : JobQueue J} (hnodup : q.assignments.Nodup) : Dequeues H bound (xs.foldl f q) q := by
  induction xs generalizing q with
  | nil => exact refl bound q
  | cons x rest ih =>
      have hfirst := hf x List.mem_cons_self q hnodup
      have hrest := ih (fun y hy => hf y (List.mem_cons_of_mem x hy))
        (hfirst.sublist.nodup hnodup)
      exact hrest.trans hfirst

omit [DecidableEq J] in
/-- What leaves the list and the statuses alone does not dequeue. -/
theorem of_same (hlist : next.assignments = q.assignments) (hstatus : next.status = q.status) :
    Dequeues H bound next q where
  sublist := hlist ▸ .refl _
  kept _ hjob _ := hlist ▸ hjob
  left _ _ h := hstatus ▸ h
  gone _ hjob hnot := absurd (hlist ▸ hjob) hnot
  outside job _ := congrFun hstatus job

end Dequeues

theorem dequeues_takeAt {job : J} (hnodup : q.assignments.Nodup) (hmem : job ∈ q.assignments) :
    Dequeues H (H.rank job + 1) (q.takeAt job) q where
  sublist := List.erase_sublist
  kept other hother hrank := by
    have hne : other ≠ job := by
      rintro rfl
      omega
    exact (List.mem_erase_of_ne hne).mpr hother
  left other hother hstatus := by
    have hne : other ≠ job := (hnodup.mem_erase_iff.mp hother).1
    simpa [takeAt, setStatus, Function.update_of_ne hne] using hstatus
  gone other hother hnot := by
    have heq : other = job := by
      by_contra hne
      exact hnot ((List.mem_erase_of_ne hne).mpr hother)
    simp [takeAt, setStatus, heq]
  outside other hnot := by
    have hne : other ≠ job := ne_of_mem_of_not_mem hmem hnot |>.symm
    simp [takeAt, setStatus, Function.update_of_ne hne]

/-- `finalCleanup` ends the collection, which is still in the list. -/
theorem dequeues_finalCleanup {bound : ℕ} {collection : J} (hmem : collection ∈ q.assignments) :
    Dequeues H bound (q.finalCleanup collection) q where
  sublist := .refl _
  kept _ hjob _ := hjob
  left job _ hstatus := by
    by_cases hjob : job = collection
    · subst hjob
      simp only [finalCleanup, setStatus, Function.update_self]
      split
      · decide
      · split
        · decide
        · exact hstatus
    · simpa [finalCleanup, setStatus, Function.update_of_ne hjob] using hstatus
  gone job hjob hnot := absurd hjob hnot
  outside job hnot := by
    have hne : job ≠ collection := (ne_of_mem_of_not_mem hmem hnot).symm
    simp [finalCleanup, setStatus, Function.update_of_ne hne]

theorem dequeues_dequeueElements {dequeue : J → JobQueue J → Bool × JobQueue J} {collection : J}
    (hdequeue : ∀ element ∈ H.elements collection, ∀ q : JobQueue J, q.assignments.Nodup →
      Dequeues H (H.rank collection) (dequeue element q).2 q)
    (hnodup : q.assignments.Nodup) (hmem : collection ∈ q.assignments) :
    Dequeues H (H.rank collection) (q.dequeueElements H dequeue collection) q := by
  have helements : Dequeues H (H.rank collection) ((H.elements collection).foldl
      (fun q element => q.dequeueElement H dequeue collection element) q) q := by
    refine Dequeues.foldl (fun element helement q hnodup => ?_) hnodup
    refine Dequeues.trans (.of_same ?_ ?_) (hdequeue element helement q hnodup) <;>
      (unfold dequeueElement; dsimp only; split <;> split <;> rfl)
  unfold dequeueElements
  dsimp only
  split
  · split
    · exact (dequeues_finalCleanup (helements.kept collection hmem le_rfl)).trans helements
    · exact helements
  · exact .refl _ _

/-- The hook of a job dequeues jobs of lower rank only, if `dequeue` does what it should on
them. -/
theorem dequeues_aboutToBeDequeued {dequeue : J → JobQueue J → Bool × JobQueue J} {job : J}
    (hdequeue : ∀ other, H.rank other < H.rank job → ∀ q : JobQueue J, q.assignments.Nodup →
      Dequeues H (H.rank other + 1) (dequeue other q).2 q)
    (hnodup : q.assignments.Nodup) (hmem : job ∈ q.assignments) :
    Dequeues H (H.rank job) (q.aboutToBeDequeued H dequeue job) q := by
  have hother : ∀ other, H.rank other < H.rank job → ∀ q : JobQueue J, q.assignments.Nodup →
      Dequeues H (H.rank job) (dequeue other q).2 q :=
    fun other hrank q hnodup => (hdequeue other hrank q hnodup).mono hrank
  let asked : JobQueue J := { q with called := q.called ++ [job] }
  have hhook : Dequeues H (H.rank job)
      ((H.aboutToBeDequeued job).foldl (fun q other => (dequeue other q).2) asked) q :=
    (Dequeues.foldl (q := asked) (fun other hmem q hnodup =>
      hother other (H.rank_lt_of_hook job other hmem) q hnodup) hnodup).trans (.of_same rfl rfl)
  unfold aboutToBeDequeued
  dsimp only
  split
  · -- a collection: its elements, then its own data
    generalize (H.aboutToBeDequeued job).foldl (fun q other => (dequeue other q).2) asked = hooked
      at hhook
    have hhooked : hooked.assignments.Nodup := hhook.sublist.nodup hnodup
    have helements := dequeues_dequeueElements (fun element helement =>
      hother element (H.rank_lt_of_element job element helement))
      (hhook.sublist.nodup hnodup) (hhook.kept job hmem le_rfl)
    refine Dequeues.trans ?_ (helements.trans hhook)
    exact .of_same rfl rfl
  · exact hhook

theorem dequeues_dequeueNested (depth : ℕ) (job : J) {q : JobQueue J}
    (hnodup : q.assignments.Nodup) (hdepth : H.rank job < depth) :
    Dequeues H (H.rank job + 1) (q.dequeueNested H depth job).2 q := by
  induction depth generalizing job q with
  | zero => omega
  | succ depth ih =>
      unfold dequeueNested
      split
      · rename_i hmem
        have hhook : Dequeues H (H.rank job)
            (q.aboutToBeDequeued H (dequeueNested H depth) job) q :=
          dequeues_aboutToBeDequeued (fun other hrank q hnodup => ih other hnodup (by omega))
            hnodup hmem
        refine Dequeues.trans (dequeues_takeAt (hhook.sublist.nodup hnodup) ?_)
          (hhook.mono (Nat.le_succ _))
        exact hhook.kept job hmem le_rfl
      · exact .refl _ q

theorem dequeues_runHook {job : J} (hnodup : q.assignments.Nodup) (hmem : job ∈ q.assignments) :
    Dequeues H (H.rank job) (q.runHook H job) q :=
  dequeues_aboutToBeDequeued
    (fun other hrank _ hnodup => dequeues_dequeueNested _ other hnodup hrank) hnodup hmem

/-! ## The two ways to dequeue all jobs -/

/-- `dequeue(job)` takes the job out, if it is there. -/
theorem dequeues_dequeueP {job : J} (hnodup : q.assignments.Nodup) :
    Dequeues H (H.rank job + 1) (q.dequeueP H job).2 q ∧
      job ∉ (q.dequeueP H job).2.assignments := by
  have hdequeues := dequeues_dequeueNested (H := H) (H.rank job + 1) job hnodup (Nat.lt_succ_self _)
  refine ⟨hdequeues, ?_⟩
  unfold dequeueP dequeueNested
  split
  · rename_i hmem
    have hhook : Dequeues H (H.rank job) (q.runHook H job) q := dequeues_aboutToBeDequeued
      (fun other hrank _ hnodup => dequeues_dequeueNested _ other hnodup hrank) hnodup hmem
    exact (hhook.sublist.nodup hnodup).not_mem_erase
  · assumption

/-- Dequeueing jobs one by one takes them out. -/
theorem dequeues_dequeueEach {bound : ℕ} (jobs : List J)
    (hbound : ∀ job ∈ jobs, H.rank job < bound) {q : JobQueue J} (hnodup : q.assignments.Nodup) :
    Dequeues H bound (q.dequeueEach H jobs) q ∧
      ∀ job ∈ jobs, job ∉ (q.dequeueEach H jobs).assignments := by
  induction jobs generalizing q with
  | nil => exact ⟨.refl _ q, fun _ h => absurd h List.not_mem_nil⟩
  | cons job rest ih =>
      obtain ⟨hfirst, hout⟩ : Dequeues H (H.rank job + 1) (q.dequeueP H job).2 q ∧
          job ∉ (q.dequeueP H job).2.assignments := dequeues_dequeueP hnodup
      obtain ⟨hrest, hgone⟩ := ih (fun other hother => hbound other (List.mem_cons_of_mem job hother))
        (hfirst.sublist.nodup hnodup)
      refine ⟨hrest.trans (hfirst.mono (hbound job List.mem_cons_self)), fun other hother => ?_⟩
      rcases List.mem_cons.mp hother with rfl | hmem
      · exact fun hmem => hout (hrest.sublist.subset hmem)
      · exact hgone other hmem

/-- One by one, all jobs leave the list in `Status_New`. -/
theorem dequeueEach_new (hnodup : q.assignments.Nodup) :
    (q.dequeueEach H q.assignments).assignments = [] ∧
      ∀ job ∈ q.assignments, (q.dequeueEach H q.assignments).status job = .new := by
  obtain ⟨bound, hbound⟩ : ∃ bound, ∀ job ∈ q.assignments, H.rank job < bound := by
    refine ⟨q.assignments.toFinset.sup H.rank + 1, fun job hjob => Nat.lt_succ_of_le ?_⟩
    exact Finset.le_sup (List.mem_toFinset.mpr hjob)
  obtain ⟨hdequeues, hgone⟩ := dequeues_dequeueEach q.assignments hbound hnodup
  refine ⟨List.eq_nil_iff_forall_not_mem.mpr fun job hjob => ?_, fun job hjob => ?_⟩
  · exact hgone job (hdequeues.sublist.subset hjob) hjob
  · exact hdequeues.gone job hjob (hgone job hjob)

/-- The last job the loop comes to is still in the list after its own hook, and nothing takes it
out before the list is cleared. -/
theorem dequeueLoop_left (fuel index : ℕ) {q : JobQueue J} {first : J}
    (hnodup : q.assignments.Nodup) (hqueued : ∀ job ∈ q.assignments, q.status job ≠ .new)
    (hfirst : q.assignments[index]? = some first) :
    ∃ job ∈ q.assignments, (q.dequeueLoop H (fuel + 1) index).status job ≠ .new := by
  have hmem : first ∈ q.assignments := List.mem_of_getElem? hfirst
  have hhook := dequeues_runHook (H := H) hnodup hmem
  have hleft := hhook.left first (hhook.kept first hmem le_rfl) (hqueued first hmem)
  induction fuel generalizing index q first with
  | zero =>
      refine ⟨first, hmem, ?_⟩
      simpa [dequeueLoop, hfirst] using hleft
  | succ fuel ih =>
      unfold dequeueLoop
      simp only [hfirst]
      cases hnext : (q.runHook H first).assignments[index + 1]? with
      | none =>
          refine ⟨first, hmem, ?_⟩
          unfold dequeueLoop
          simpa [hnext] using hleft
      | some second =>
          have hnodup' := hhook.sublist.nodup hnodup
          have hqueued' : ∀ job ∈ (q.runHook H first).assignments,
              (q.runHook H first).status job ≠ .new := fun job hjob =>
            hhook.left job hjob (hqueued job (hhook.sublist.subset hjob))
          have hmem' := List.mem_of_getElem? hnext
          have hhook' := dequeues_runHook (H := H) hnodup' hmem'
          obtain ⟨job, hjob, hstatus⟩ := ih (index + 1) hnodup' hqueued' hnext hmem' hhook'
            (hhook'.left second (hhook'.kept second hmem' le_rfl) (hqueued' second hmem'))
          exact ⟨job, hhook.sublist.subset hjob, hstatus⟩

/-- The jobs in the list are distinct and not in `Status_New`. -/
structure Queued (q : JobQueue J) : Prop where
  nodup : q.assignments.Nodup
  status : ∀ job ∈ q.assignments, q.status job ≠ .new

omit [DecidableEq J] in
theorem Queued.of_dequeues {bound : ℕ} (h : q.Queued) (hdequeues : Dequeues H bound next q) :
    next.Queued :=
  ⟨hdequeues.sublist.nodup h.nodup, fun job hjob =>
    hdequeues.left job hjob (h.status job (hdequeues.sublist.subset hjob))⟩

theorem Queued.enqueueJob (h : q.Queued) {job : J} (hnew : q.status job = .new) :
    (q.enqueueJob H job).Queued := by
  have hlist : (q.enqueueJob H job).assignments =
      Library.insertFromBack H.priority job q.assignments := by
    unfold JobQueue.enqueueJob aboutToBeQueued
    dsimp only
    split <;> rfl
  have hstatus : (q.enqueueJob H job).status = Function.update q.status job .queued := by
    unfold JobQueue.enqueueJob aboutToBeQueued
    dsimp only
    split <;> rfl
  have hnot : job ∉ q.assignments := fun hmem => h.status job hmem hnew
  refine ⟨?_, fun other hother => ?_⟩
  · rw [hlist, (Library.insertFromBack_perm H.priority job q.assignments).nodup_iff]
    exact List.nodup_cons.mpr ⟨hnot, h.nodup⟩
  · rw [hstatus]
    by_cases hne : other = job
    · subst hne
      simp
    · rw [Function.update_of_ne hne]
      rw [hlist, Library.mem_insertFromBack] at hother
      exact h.status other (hother.resolve_left hne)

theorem status_enqueueJob_of_ne {job other : J} (hne : other ≠ job) :
    (q.enqueueJob H job).status other = q.status other := by
  unfold JobQueue.enqueueJob aboutToBeQueued
  dsimp only
  split <;> simp [setStatus, Function.update_of_ne hne]

theorem Queued.enqueue (h : q.Queued) {jobs : List J} (hnodup : jobs.Nodup)
    (hnew : ∀ job ∈ jobs, q.status job = .new) :
    (jobs.foldl (fun q job => q.enqueueJob H job) q).Queued := by
  induction jobs generalizing q with
  | nil => exact h
  | cons job rest ih =>
      rw [List.nodup_cons] at hnodup
      refine ih (h.enqueueJob (hnew job List.mem_cons_self)) hnodup.2 fun other hother => ?_
      rw [status_enqueueJob_of_ne (ne_of_mem_of_not_mem hother hnodup.1)]
      exact hnew other (List.mem_cons_of_mem job hother)

/-- **Every reachable queue** has distinct jobs, none of them in `Status_New`. -/
theorem Reachable.queued (h : Reachable H q) : q.Queued := by
  induction h with
  | start hempty => exact ⟨hempty ▸ List.nodup_nil, fun job hjob => by simp [hempty] at hjob⟩
  | @step q next action _ hstep ih =>
      cases action with
      | enqueue jobs =>
          obtain ⟨hnodup, hnew, rfl⟩ := hstep
          exact ih.enqueue hnodup hnew
      | dequeue job =>
          obtain rfl := hstep
          exact ih.of_dequeues (dequeues_dequeueP ih.nodup).1
      | dequeueAll =>
          obtain rfl := hstep
          exact ⟨List.nodup_nil, fun job hjob => absurd hjob List.not_mem_nil⟩
      | assign job =>
          obtain rfl := hstep
          exact ⟨ih.nodup.erase job, fun other hother =>
            ih.status other (List.mem_of_mem_erase hother)⟩
      | work changed =>
          obtain ⟨rfl, hlist, hsame⟩ := hstep
          refine ⟨hlist ▸ ih.nodup, fun job hjob => ?_⟩
          rw [hlist] at hjob
          rw [(hsame job hjob).1]
          exact ih.status job hjob

/-- **`dequeue()` agrees with dequeueing one by one** on the empty queue only. -/
theorem dequeueAll_agrees_iff (H : Hooks J) {q : JobQueue J} (hreachable : Reachable H q) :
    q.Agrees H ↔ q.assignments = [] := by
  have hqueued := hreachable.queued
  constructor
  · intro hagrees
    cases hlist : q.assignments with
    | nil => rfl
    | cons first rest =>
        have hfirst : q.assignments[0]? = some first := by rw [hlist]; rfl
        obtain ⟨job, hjob, hstatus⟩ := dequeueLoop_left (H := H) rest.length 0 hqueued.nodup
          hqueued.status hfirst
        have hnew : (q.dequeueAllP H).status job = .new := by
          rw [hagrees.status]
          exact (dequeueEach_new hqueued.nodup).2 job hjob
        refine absurd hnew ?_
        simpa [dequeueAllP, hlist] using hstatus
  · intro hempty
    have hall : q.dequeueAllP H = q := by
      obtain ⟨assignments, _⟩ := q
      obtain rfl : assignments = [] := hempty
      rfl
    have heach : q.dequeueEach H q.assignments = q := by
      rw [hempty]
      rfl
    refine ⟨?_, ?_, ?_, ?_, ?_, ?_⟩
    · simp [hempty]
    · simp [hempty]
    all_goals rw [hall, heach]

private theorem rank_lt_of_noHook (_ other : ℕ) (h : other ∈ ([] : List ℕ)) : 0 < 0 :=
  absurd h List.not_mem_nil

/-- Plain jobs without hooks. -/
def noHooks : Hooks ℕ where
  isCollection _ := false
  isSequence _ := false
  elements _ := []
  aboutToBeDequeued _ := []
  priority _ := 0
  rank _ := 0
  rank_lt_of_hook := rank_lt_of_noHook
  rank_lt_of_element := rank_lt_of_noHook

/-- One job that has just been enqueued. -/
def oneQueued : JobQueue ℕ :=
  enqueueJob noHooks 0
    { assignments := []
      status := fun _ => .new
      shouldAbort := fun _ => false
      isBlocked := fun _ => false
      api := fun _ => false
      jobCounter := fun _ => 0
      executors := fun _ => [.default]
      called := []
      freed := [] }

theorem reachable_oneQueued : Reachable noHooks oneQueued := by
  have hstep : JobQueue.step noHooks _ (.enqueue [0]) oneQueued :=
    ⟨List.nodup_singleton 0, fun _ _ => rfl, rfl⟩
  exact .step (.start rfl) hstep

/-- The job that is queued keeps the two from agreeing. -/
theorem dequeueAll_agrees_iff_oneQueued : ¬ oneQueued.Agrees noHooks := fun hagrees =>
  absurd ((dequeueAll_agrees_iff noHooks reachable_oneQueued).mp hagrees) (by decide)

/-- The job is out of the queue and still in `Status_Queued`. -/
theorem not_dequeueAll_agrees : ¬ ∀ q : JobQueue ℕ, Reachable noHooks q → q.Agrees noHooks := by
  intro hall
  have hnew := (hall oneQueued reachable_oneQueued).isNew 0 (by decide)
  exact absurd hnew (by decide)

end JobQueue

end ThreadWeaver
