import ThreadWeaver.Dequeueing

/-!
# Rounds of enqueueing and dequeueing

Jobs are enqueued, dequeued, added to collections and taken by workers, in any order.  Along a
run goes the run of its calls of `addJob` alone (`Runs.intact`), and with `Intact` between the two
whatever has been enqueued and dequeued leaves no trace (`enqueue_dequeue_cancel`), except in the
counter of a collection that was dequeued while an element of it was in the list.
-/

namespace ThreadWeaver.WrappedQueue

variable {I J A : Type*} [DecidableEq I] [DecidableEq J] {K : Interfaces I J}
  {once q mid next : WrappedQueue I J A} {job collection : J} {pointer : I} {number : ℕ}

/-! ## Runs -/

variable {ok : WrappedQueue I J A → Act I J A → WrappedQueue I J A → Prop}
  {start : WrappedQueue I J A} {act : Act I J A} {acts : List (Act I J A)}

/-- A worker takes a job. -/
theorem Intact.assign (h : Intact K once q) (hmem : pointer ∈ q.assignments) :
    Intact K once { q with
      assignments := q.assignments.erase pointer
      assigned := Function.update q.assigned (K.decorated pointer) true } := by
  have hqueued : ∀ job, Queued K { q with
      assignments := q.assignments.erase pointer
      assigned := Function.update q.assigned (K.decorated pointer) true } job ↔
        q.Queued K job ∧ job ≠ K.decorated pointer :=
    fun job => queued_erase h.nodup hmem rfl
  have hstatus : (q.memory (K.decorated pointer)).status ≠ .new := by
    intro hnew
    exact (h.free_of_new hnew).1 ⟨pointer, hmem, rfl⟩
  have hfree : ∀ job, Function.update q.assigned (K.decorated pointer) true job = false →
      job ≠ K.decorated pointer ∧ q.assigned job = false := by
    intro job hjob
    have hne : job ≠ K.decorated pointer := by
      rintro rfl
      simp at hjob
    rw [Function.update_of_ne hne] at hjob
    exact ⟨hne, hjob⟩
  refine ⟨h.nodup.sublist (List.erase_sublist.map _), fun job hjob => ?_, fun job hjob => ?_,
    h.elements, h.heap, fun job hjob => h.queued job ((hqueued job).mp hjob).1,
    fun job hjob hjobfree => ?_, fun job hjobfree => h.jobCounter job (hfree job hjobfree).2⟩
  · obtain ⟨hjob, hne⟩ := (hqueued job).mp hjob
    exact (Function.update_of_ne hne true q.assigned).trans (h.unassigned job hjob)
  · by_cases hne : job = K.decorated pointer
    · exact hne ▸ hstatus
    · exact h.taken job ((Function.update_of_ne hne true q.assigned).symm.trans hjob)
  · obtain ⟨hne, hjobfree⟩ := hfree job hjobfree
    exact h.bare job (fun hjob' => hjob ((hqueued job).mpr ⟨hjob', hne⟩)) hjobfree

/-- Everything else leaves the jobs that no worker has taken alone. -/
theorem Intact.work (h : Intact K once q) (hstep : q.step K (.work next) next) :
    Intact K once next := by
  obtain ⟨-, hlist, hassigned, hmemory⟩ := hstep
  have hqueued : ∀ job, next.Queued K job ↔ q.Queued K job := by simp [Queued, hlist]
  have hfree : ∀ job, next.assigned job = false →
      (next.memory job).Alike (q.memory job) ∧
        (next.memory job).jobCounter = (q.memory job).jobCounter := by
    intro job hjob
    obtain ⟨-, -, hjob'⟩ := hmemory job
    rw [hassigned] at hjob
    simpa [hjob] using hjob'
  refine ⟨hlist ▸ h.nodup, fun job hjob => ?_, fun job hjob => ?_, fun job => ?_,
    fun job number hnone => ?_, fun job hjob => ?_, fun job hjob hjobfree => ?_,
    fun job hjobfree => ?_⟩
  · rw [hassigned]
    exact h.unassigned job ((hqueued job).mp hjob)
  · obtain ⟨-, -, hjob'⟩ := hmemory job
    rw [hassigned] at hjob
    simpa [hjob] using hjob'
  · exact (hmemory job).2.1.trans (h.elements job)
  · exact h.heap job number ((hmemory job).1 ▸ hnone)
  · have hjob' := (hqueued job).mp hjob
    obtain ⟨number, hnew, halike⟩ := h.queued job hjob'
    exact ⟨number, hnew, (hfree job (hassigned ▸ h.unassigned job hjob')).1.trans halike⟩
  · exact (hfree job hjobfree).1.trans (h.bare job (mt (hqueued job).mpr hjob)
      (hassigned ▸ hjobfree))
  · rw [(hfree job hjobfree).2]
    exact h.jobCounter job (hassigned ▸ hjobfree)

omit [DecidableEq I] [DecidableEq J] in
/-- The asserts of `addJob` rule out a collection in the list. -/
theorem Intact.not_queued_of_addJob (hfresh : once.IsFresh K) (h : Intact K once q)
    (hkind : K.kind collection ≠ .plain)
    (hassert : (q.memory collection).api = false ∨ (q.memory collection).selfIsExecuting = true) :
    ¬ q.Queued K collection := by
  intro hqueued
  obtain ⟨number, -, halike⟩ := h.queued collection hqueued
  rcases hassert with hapi | hself
  · rw [halike.api, JobMemory.enqueued_api hkind] at hapi
    cases hapi
  · rw [halike.selfIsExecuting, JobMemory.enqueued_selfIsExecuting,
      (hfresh.bare collection).selfIsExecuting] at hself
    cases hself

/-- The runs in which nothing is asked of the steps. -/
abbrev Reaches (K : Interfaces I J) (start : WrappedQueue I J A) (acts : List (Act I J A))
    (q : WrappedQueue I J A) : Prop :=
  Runs K (fun _ _ _ => True) start acts q

theorem Runs.mono {weaker : WrappedQueue I J A → Act I J A → WrappedQueue I J A → Prop}
    (h : ∀ q act next, ok q act next → weaker q act next) (run : Runs K ok start acts q) :
    Runs K weaker start acts q := by
  induction run with
  | refl => exact .refl
  | tail _ hstep hok ih => exact ih.tail hstep (h _ _ _ hok)

theorem Runs.append {more : List (Act I J A)} (h : Runs K ok start acts mid)
    (h' : Runs K ok mid more q) : Runs K ok start (acts ++ more) q := by
  induction h' with
  | refl => simpa using h
  | tail _ hstep hok ih =>
      rw [← List.append_assoc]
      exact ih.tail hstep hok

/-- One step, and the same step without everything but `addJob`. -/
theorem Intact.step (hfresh : once.IsFresh K) (h : Intact K once q)
    (hstep : q.step K act next) :
    ∃ once', Reaches K once ([act].filter Act.isAddJob) once' ∧ once'.IsFresh K ∧
      Intact K once' next ∧
      ∀ job, ¬ act.Wraps K job → (once'.memory job).executors = (once.memory job).executors := by
  cases act with
  | enqueue pointer number =>
      obtain ⟨hnew, hheap, rfl⟩ := hstep
      exact ⟨once, .refl, hfresh, h.enqueueJob hnew hheap, fun _ _ => rfl⟩
  | dequeue pointer =>
      obtain rfl := hstep
      exact ⟨once, .refl, hfresh,
        (dequeueP_spec hfresh h pointer).1.intact, fun _ _ => rfl⟩
  | addJob collection pointer number =>
      obtain ⟨hassert, hkind, hpointer, hrank, hheap, rfl⟩ := hstep
      have hne : K.decorated pointer ≠ collection := by
        rintro rfl
        omega
      have hcollection := h.not_queued_of_addJob hfresh hkind hassert
      have hempty : ¬ once.Queued K (K.decorated pointer) := by simp [Queued, hfresh.assignments]
      refine ⟨once.addJob K collection pointer number, ?_, hfresh.addJob hkind hrank,
        h.addJob hne hpointer hcollection, fun job hjob => ?_⟩
      · exact Runs.refl.tail ⟨.inl (hfresh.bare collection).api, hkind, hempty, hrank,
          h.heap _ number hheap, rfl⟩ trivial
      · rw [addJob_memory hne]
        exact if_neg fun heq => hjob heq.symm
  | assign pointer =>
      obtain ⟨hmem, rfl⟩ := hstep
      exact ⟨once, .refl, hfresh, h.assign hmem, fun _ _ => rfl⟩
  | work changed =>
      obtain ⟨rfl, hwork⟩ := hstep
      exact ⟨once, .refl, hfresh, h.work ⟨rfl, hwork⟩, fun _ _ => rfl⟩

/-- **A run, and the run of its calls of `addJob` alone.** -/
theorem Runs.intact {first : WrappedQueue I J A} (hfresh : first.IsFresh K)
    (h : Intact K first start) (run : Runs K ok start acts q) :
    ∃ once, Reaches K first (acts.filter Act.isAddJob) once ∧ once.IsFresh K ∧
      Intact K once q ∧
      ∀ job, (∀ act ∈ acts, ¬ act.Wraps K job) →
        (once.memory job).executors = (first.memory job).executors := by
  induction run with
  | refl => exact ⟨first, .refl, hfresh, h, fun _ _ => rfl⟩
  | @tail acts act q next _ hstep _ ih =>
      obtain ⟨mid, hmid, hmidfresh, hintact, hsame⟩ := ih
      obtain ⟨once, honce, hlast, hnext, hstepsame⟩ := hintact.step hmidfresh hstep
      refine ⟨once, ?_, hlast, hnext, fun job hjob => ?_⟩
      · rw [List.filter_append]
        exact hmid.append honce
      · have hacts : ∀ act ∈ acts, ¬ act.Wraps K job := fun act hact =>
          hjob act (List.mem_append_left _ hact)
        have hact : ¬ act.Wraps K job := hjob act (by simp)
        exact (hstepsame job hact).trans (hsame job hacts)

/-- When a `dequeue` takes the collection out, none of its elements is in the list. -/
def DequeuedAlone (K : Interfaces I J) (collection : J) (q : WrappedQueue I J A)
    (act : Act I J A) (next : WrappedQueue I J A) : Prop :=
  ∀ pointer, act = .dequeue pointer → q.Queued K collection → ¬ next.Queued K collection →
    ∀ element ∈ (q.memory collection).elements, element ∉ q.assignments

/-- The counter of a collection that is dequeued without its elements stays 0. -/
theorem Runs.jobCounter_eq_zero (hfresh : start.IsFresh K)
    (run : Runs K (DequeuedAlone K collection) start acts q)
    (hfree : q.assigned collection = false) : (q.memory collection).jobCounter = 0 := by
  induction run with
  | refl => exact hfresh.jobCounter collection
  | @tail acts act q next run hstep hok ih =>
      obtain ⟨once, -, honcefresh, hintact, -⟩ := run.intact hfresh (.refl hfresh)
      cases act with
      | enqueue pointer number =>
          obtain ⟨-, -, rfl⟩ := hstep
          rw [← ih hfree]
          by_cases hne : collection = K.decorated pointer
          · rw [hne, enqueueJob_self, JobMemory.enqueued_jobCounter]
          · rw [enqueueJob_of_ne hne]
      | dequeue pointer =>
          have hdequeues := (dequeueP_spec honcefresh hintact pointer).1.dequeues
          obtain rfl := hstep
          rw [hdequeues.jobCounter collection trivial ?_]
          · exact ih (hdequeues.assigned ▸ hfree)
          · by_cases hnext : (q.dequeueP K pointer).2.Queued K collection
            · exact .inl hnext
            · by_cases hqueued : q.Queued K collection
              · exact .inr (.inr (hok pointer rfl hqueued hnext))
              · exact .inr (.inl hqueued)
      | addJob added pointer number =>
          obtain ⟨-, -, -, hrank, -, rfl⟩ := hstep
          have hne : K.decorated pointer ≠ added := by
            rintro rfl
            omega
          rw [addJob_memory hne]
          exact ih hfree
      | assign pointer =>
          obtain ⟨-, rfl⟩ := hstep
          refine ih ?_
          have hne : collection ≠ K.decorated pointer := by
            rintro rfl
            simp at hfree
          exact (Function.update_of_ne hne true q.assigned).symm.trans hfree
      | work changed =>
          obtain ⟨rfl, -, hassigned, hmemory⟩ := hstep
          rw [hassigned] at hfree
          obtain ⟨-, -, hjob⟩ := hmemory collection
          rw [if_neg (by simp [hfree])] at hjob
          exact hjob.2.trans (ih hfree)

/-! ## Rounds -/

/-- `dequeue` of `pointer`, to a job that was as in `q` before it was enqueued, finds the job and
leaves it as it was.  The counter is the same unless an element was in the list. -/
structure TakesBack (K : Interfaces I J) (pointer : I) (q last : WrappedQueue I J A) : Prop where
  found : (last.dequeueP K pointer).1 = true
  out : ¬ (last.dequeueP K pointer).2.Queued K (K.decorated pointer)
  executors : ((last.dequeueP K pointer).2.memory (K.decorated pointer)).executors =
    (q.memory (K.decorated pointer)).executors
  api : ((last.dequeueP K pointer).2.memory (K.decorated pointer)).api = false
  jobsStarted : ((last.dequeueP K pointer).2.memory (K.decorated pointer)).jobsStarted = 0
  status : ((last.dequeueP K pointer).2.memory (K.decorated pointer)).status = .new
  jobCounter : ((last.dequeueP K pointer).2.memory (K.decorated pointer)).jobCounter =
      (last.memory (K.decorated pointer)).jobCounter ↔
    ∀ element ∈ (last.memory (K.decorated pointer)).elements, element ∉ last.assignments

/-- The executors of the two jobs make the same calls. -/
structure CallsAlike (chain chain' : ExecutorChain J A) : Prop where
  begin : ∀ length, chain.begin length (some chain.executor) =
    chain'.begin length (some chain'.executor)
  execute : ∀ length, chain.execute length (some chain.executor) =
    chain'.execute length (some chain'.executor)
  «end» : ∀ length, chain.end length (some chain.executor) =
    chain'.end length (some chain'.executor)
  callBegin : ∀ length, chain.callBegin length = chain'.callBegin length
  callEnd : ∀ length, chain.callEnd length = chain'.callEnd length

/-- The job can be enqueued in both queues, with its wrapper at the same address, and is the same
after that. -/
structure EnqueuesAlike (K : Interfaces I J) (pointer : I) (number : ℕ)
    (q once : WrappedQueue I J A) : Prop where
  enqueued : q.step K (.enqueue pointer number) (q.enqueueJob K pointer number)
  enqueuedOnce : once.step K (.enqueue pointer number) (once.enqueueJob K pointer number)
  alike : ((q.enqueueJob K pointer number).memory (K.decorated pointer)).Alike
    ((once.enqueueJob K pointer number).memory (K.decorated pointer))
  calls : CallsAlike ((q.enqueueJob K pointer number).memory (K.decorated pointer)).executors
    ((once.enqueueJob K pointer number).memory (K.decorated pointer)).executors

theorem Intact.takesBack {first : WrappedQueue I J A} {last : WrappedQueue I J A}
    (hfirst : first.IsFresh K) (h : Intact K first q)
    (hqueued : ¬ q.Queued K (K.decorated pointer))
    (hfree : q.assigned (K.decorated pointer) = false)
    (hheap : (q.memory (K.decorated pointer)).executors.heap number = none)
    (run : Reaches K (q.enqueueJob K pointer number) acts last)
    (hwraps : ∀ act ∈ acts, ¬ act.Wraps K (K.decorated pointer))
    (hmem : pointer ∈ last.assignments) : TakesBack K pointer q last := by
  have hbare := h.bare _ hqueued hfree
  have hnew : (q.memory (K.decorated pointer)).status = .new :=
    hbare.status.trans (hfirst.bare _).status
  obtain ⟨once, -, honce, hintact, hsame⟩ := run.intact hfirst (h.enqueueJob hnew hheap)
  obtain ⟨hspec, hcounter⟩ := dequeueP_spec honce hintact pointer
  obtain ⟨hfound, hout⟩ := hspec.found hmem
  have hlast : (last.dequeueP K pointer).2.assigned (K.decorated pointer) = false :=
    (congrFun hspec.dequeues.assigned _).trans (hintact.unassigned _ ⟨pointer, hmem, rfl⟩)
  have halike : ((last.dequeueP K pointer).2.memory (K.decorated pointer)).Alike
      (once.memory (K.decorated pointer)) := hspec.intact.bare _ hout hlast
  have hlastbare := honce.bare (K.decorated pointer)
  refine ⟨hfound, hout, ?_, halike.api.trans hlastbare.api,
    halike.jobsStarted.trans hlastbare.jobsStarted, halike.status.trans hlastbare.status,
    hcounter hmem⟩
  calc ((last.dequeueP K pointer).2.memory (K.decorated pointer)).executors
      = (once.memory (K.decorated pointer)).executors := halike.executors
    _ = (first.memory (K.decorated pointer)).executors := hsame _ hwraps
    _ = (q.memory (K.decorated pointer)).executors := hbare.executors.symm

theorem Intact.enqueuesAlike (honce : once.IsFresh K) (h : Intact K once q)
    (hqueued : ¬ q.Queued K (K.decorated pointer))
    (hfree : q.assigned (K.decorated pointer) = false)
    (hheap : (q.memory (K.decorated pointer)).executors.heap number = none) :
    EnqueuesAlike K pointer number q once := by
  have hbare := h.bare _ hqueued hfree
  have halike : ((q.enqueueJob K pointer number).memory (K.decorated pointer)).Alike
      ((once.enqueueJob K pointer number).memory (K.decorated pointer)) := by
    rw [enqueueJob_self, enqueueJob_self]
    exact hbare.enqueued _ number
  refine ⟨⟨hbare.status.trans (honce.bare _).status, hheap, rfl⟩,
    ⟨(honce.bare _).status, h.heap _ number hheap, rfl⟩, halike, ?_⟩
  rw [halike.executors]
  exact ⟨fun _ => rfl, fun _ => rfl, fun _ => rfl, fun _ => rfl, fun _ => rfl⟩

/-- **Queue and dequeue cancel out.**  In every run from a fresh queue, with `once` what its calls
of `addJob` alone lead to:

* a job that is not in the list is, after it has been enqueued and dequeued before a worker has
  taken it, as it was before, link by link;
* its counter is 0, if no element was in the list whenever it was dequeued;
* however often it has been enqueued and dequeued, it can be enqueued again, and it and its
  elements make the calls of jobs that are enqueued for the first time. -/
theorem enqueue_dequeue_cancel (hstart : start.IsFresh K) (run : Reaches K start acts q) :
    ∃ once, Reaches K start (acts.filter Act.isAddJob) once ∧
      (∀ job, (q.memory job).elements = (once.memory job).elements) ∧
      (∀ collection, Runs K (DequeuedAlone K collection) start acts q →
        q.assigned collection = false → (q.memory collection).jobCounter = 0) ∧
      ∀ pointer number, ¬ q.Queued K (K.decorated pointer) →
        q.assigned (K.decorated pointer) = false →
        (q.memory (K.decorated pointer)).executors.heap number = none →
        EnqueuesAlike K pointer number q once ∧
          ∀ between last, Reaches K (q.enqueueJob K pointer number) between last →
            (∀ act ∈ between, ¬ act.Wraps K (K.decorated pointer)) →
            pointer ∈ last.assignments → TakesBack K pointer q last := by
  obtain ⟨once, hreaches, honce, hintact, -⟩ := run.intact hstart (.refl hstart)
  refine ⟨once, hreaches, hintact.elements,
    fun collection halone hfree => halone.jobCounter_eq_zero hstart hfree, ?_⟩
  intro pointer number hqueued hfree hheap
  exact ⟨hintact.enqueuesAlike honce hqueued hfree hheap, fun between last hrun hwraps hmem =>
    hintact.takesBack honce hqueued hfree hheap hrun hwraps hmem⟩

/-- Job `0` is plain, the others are collections.  The objects `10` to `19` decorate them. -/
def tenJobs : Interfaces ℕ ℕ where
  decorated pointer := pointer % 10
  kind job := if job = 0 then .plain else .collection
  priority _ := 0
  rank job := job
  chainLength := 0

/-- Nothing has been added or enqueued. -/
def untouched : WrappedQueue ℕ ℕ Empty where
  assignments := []
  assigned _ := false
  memory _ :=
    { status := .new
      shouldAbort := false
      isBlocked := false
      elements := []
      api := false
      jobCounter := 0
      jobsStarted := 0
      selfIsExecuting := false
      executors := ⟨.defaultExecutor, none, fun _ => none⟩ }
  freed := []

theorem isFresh_untouched : untouched.IsFresh tenJobs :=
  ⟨rfl, fun _ => rfl, fun _ => ⟨rfl, rfl, rfl, rfl, rfl⟩, fun _ => rfl, fun _ _ => rfl,
    fun _ _ h => absurd h List.not_mem_nil⟩

/-- Collection `1` has been added to collection `2`, through its decorator. -/
def wrappedOnce : WrappedQueue ℕ ℕ Empty := untouched.addJob tenJobs 2 11 0

theorem reaches_wrappedOnce : Reaches tenJobs untouched [.addJob 2 11 0] wrappedOnce :=
  Runs.refl.tail ⟨.inl rfl, by decide, by simp [Queued, untouched], by decide, rfl, rfl⟩ trivial

/-- With job `0` as its element, the collection has been enqueued and dequeued. -/
def takenBackOnce : WrappedQueue ℕ ℕ Empty :=
  (((wrappedOnce.addJob tenJobs 1 10 0).enqueueJob tenJobs 11 1).dequeueP tenJobs 11).2

theorem runs_takenBackOnce : Runs tenJobs (DequeuedAlone tenJobs 1) untouched
    [.addJob 2 11 0, .addJob 1 10 0, .enqueue 11 1, .dequeue 11] takenBackOnce := by
  have hadded : Runs tenJobs (DequeuedAlone tenJobs 1) untouched [.addJob 2 11 0] wrappedOnce :=
    Runs.refl.tail ⟨.inl rfl, by decide, by simp [Queued, untouched], by decide, rfl, rfl⟩
      (by simp [DequeuedAlone])
  have hfilled : Runs tenJobs (DequeuedAlone tenJobs 1) untouched [.addJob 2 11 0, .addJob 1 10 0]
      (wrappedOnce.addJob tenJobs 1 10 0) :=
    hadded.tail ⟨.inl rfl, by decide, by simp [Queued, wrappedOnce, untouched, addJob], by decide,
      rfl, rfl⟩ (by simp [DequeuedAlone])
  have hqueued : Runs tenJobs (DequeuedAlone tenJobs 1) untouched
      [.addJob 2 11 0, .addJob 1 10 0, .enqueue 11 1]
      ((wrappedOnce.addJob tenJobs 1 10 0).enqueueJob tenJobs 11 1) :=
    hfilled.tail ⟨rfl, by decide, rfl⟩ (by simp [DequeuedAlone])
  refine hqueued.tail rfl ?_
  rintro pointer - - -
  decide

/-- In a second round the element is enqueued by itself while the collection is in the list. -/
theorem enqueue_dequeue_cancel_takenBackOnce :
    (takenBackOnce.memory 1).jobCounter = 0 ∧
      (∃ once, Reaches tenJobs untouched [.addJob 2 11 0, .addJob 1 10 0] once ∧
        EnqueuesAlike tenJobs 11 1 takenBackOnce once) ∧
      TakesBack tenJobs 11 takenBackOnce
        ((takenBackOnce.enqueueJob tenJobs 11 1).enqueueJob tenJobs 10 1) := by
  have hreaches := runs_takenBackOnce.mono fun _ _ _ _ => trivial
  obtain ⟨once, honce, -, hcounter, hround⟩ :=
    enqueue_dequeue_cancel isFresh_untouched hreaches
  have hnot : ¬ takenBackOnce.Queued tenJobs (tenJobs.decorated 11) := by
    unfold Queued
    decide
  obtain ⟨halike, htakes⟩ := hround 11 1 hnot rfl (by decide)
  refine ⟨hcounter 1 runs_takenBackOnce rfl, ⟨once, honce, halike⟩, ?_⟩
  exact htakes [.enqueue 10 1] _ (Runs.refl.tail ⟨rfl, by decide, rfl⟩ trivial)
    (by simp [Act.Wraps]) (by decide)

/-- The element has been enqueued by itself, and is dequeued together with its collection. -/
theorem not_jobCounter_eq_zero :
    ¬ ∀ (acts between : List (Act ℕ ℕ Empty)) (q last : WrappedQueue ℕ ℕ Empty)
      (pointer number : ℕ), Reaches tenJobs untouched acts q →
        ¬ q.Queued tenJobs (tenJobs.decorated pointer) →
        q.assigned (tenJobs.decorated pointer) = false →
        (q.memory (tenJobs.decorated pointer)).executors.heap number = none →
        Reaches tenJobs (q.enqueueJob tenJobs pointer number) between last →
        (∀ act ∈ between, ¬ act.Wraps tenJobs (tenJobs.decorated pointer)) →
        pointer ∈ last.assignments →
        ((last.dequeueP tenJobs pointer).2.memory (tenJobs.decorated pointer)).jobCounter = 0 := by
  intro hall
  have hnot : ¬ wrappedOnce.Queued tenJobs (tenJobs.decorated 2) := by
    simp [Queued, wrappedOnce, untouched, addJob]
  have hbetween : Reaches tenJobs (wrappedOnce.enqueueJob tenJobs 2 0) [.enqueue 11 1]
      ((wrappedOnce.enqueueJob tenJobs 2 0).enqueueJob tenJobs 11 1) :=
    Runs.refl.tail ⟨rfl, by decide, rfl⟩ trivial
  have hzero := hall _ _ _ _ 2 0 reaches_wrappedOnce hnot rfl (by decide) hbetween
    (by simp [Act.Wraps]) (by decide)
  exact absurd hzero (by decide)

end ThreadWeaver.WrappedQueue
