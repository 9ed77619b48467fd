import ThreadWeaver.Collection.Executors
import ThreadWeaver.Collection.Turns
import ThreadWeaver.Library.Work

/-!
# The work that is left

Every operation leaves less to be done than there was before, but for three that only look for
something to do: a worker that applies for work while it has none to report, one that goes over the
jobs in the queue, and a thread that waits in `finish`.  So whatever the threads have begun, the
execution of nested collections as well as stops and aborts of them, comes to an end, in every
order of their steps and without any assumption about the mutexes.

The measure is a sum over the operations on the stacks and over the jobs.  A job pays when it leaves
the queue for everything up to its end, or for being dequeued; a collection keeps back what its end
will take while it waits for its elements; and the first begin that it is notified of pays for
notifying the collection around it.  An abort goes inwards, so the work of one is defined along the
nesting.
-/

namespace ThreadWeaver.Collection

open Library (RunWhere)

variable {J P T σ : Type*}

/-! ## The measure -/

section Measure

variable (F : Forest J P σ)

/-- The number of elements. -/
def Forest.width (job : J) : ℕ :=
  (F.elements job).length

/-- The work of the end of a job, which is reported to the collection around it. -/
def Forest.endWork (job : J) : ℕ :=
  ((F.parent job).map fun collection => 2 * F.width collection + 16).getD 0 + 1

/-- The work of `requestAbort` of a job of at most this height. -/
def Forest.abortWorkWithin : ℕ → J → ℕ
  | 0, _ => 0
  | height + 1, job =>
      ((F.elements job).map fun element => abortWorkWithin height element + 1).sum +
        2 * F.width job + 12

/-- The work of `requestAbort`. -/
def Forest.abortWork (job : J) : ℕ :=
  F.abortWorkWithin (F.height job + 1) job

/-- The work that is left when an operation is to be done, without what jobs pay for. -/
def Forest.opWork [DecidableEq J] : Op J → ℕ
  | .applyForWork wasBusy => if wasBusy then 1 else 0
  | .takeFirst _ | .finish => 0
  | .enqueue jobs => jobs.length + 2
  | .enqueueJob _ | .assignBlocker _ | .removeBlocker _ | .clearSelf _ | .leave _ | .discount _ _
  | .checkLast _ | .resetApi _ | .takeAt _ | .unlock _ | .setStatus _ _ => 1
  | .execute job => F.endWork job + 4 * F.width job + 24
  | .elementStarted _ => 2
  | .setRunning job => F.endWork job + 4 * F.width job + 21
  | .run job => F.endWork job + 4 * F.width job + 19
  | .defaultEnd job => F.endWork job
  | .elementFinished collection job =>
      if job = collection then 4 * F.width collection + 18 else 2 * F.width collection + 16
  | .processCompletedElement collection _ => 2 * F.width collection + 15
  | .restoreStatus _ _ _ => 5
  | .advance _ _ => 4
  | .countDown _ _ => 2
  | .stop collection => 2 * F.width collection + 9
  | .dequeueSelf collection => 2 * F.width collection + 8
  | .stopElements collection => 2 * F.width collection + 4
  | .dequeueElements collection _ => 2 * F.width collection + 2
  | .dequeueElement _ _ _ => 2
  | .aboutToBeDequeued job => 2 * F.width job + 4
  | .requestAbort job => F.abortWork job
  | .abortElements collection =>
      ((F.elements collection).map fun element => F.abortWork element + 1).sum + 2
  | .abortElement element => F.abortWork element + 1

/-- What a job has still to pay. -/
def Forest.placeWork (job : J) : Place T → ℕ
  | .fresh | .queued | .held .pending _ | .held .leaving _ =>
      2 * F.endWork job + 6 * F.width job + 33
  | .held .assigned _ | .held .executing _ | .held .closing _ | .waiting => F.endWork job + 1
  | .held .ending _ | .held .reporting _ | .held .taken _ | .reported | .discounted | .lost => 0

/-- What is to be paid for a job and for the begins that it is notified of. -/
def Data.jobWork (d : Data J P T σ) (job : J) : ℕ :=
  F.placeWork job (d.place job) + if d.jobsStarted job = 0 then 2 else 0

def Data.work [Fintype J] (d : Data J P T σ) : ℕ :=
  ∑ job, d.jobWork F job

def Forest.stackWork [DecidableEq J] (stack : List (Op J)) : ℕ :=
  (stack.map F.opWork).sum

/-- The work that is left: what the jobs have to pay and what lies on the stacks. -/
noncomputable def State.work [Fintype J] [DecidableEq J] (s : State J P T σ) : ℕ :=
  s.data.work F + finsum fun thread => F.stackWork (s.stack thread)

/-- The operation looks for work, or for the end of all work. -/
def Op.polls [DecidableEq J] (d : Data J P T σ) : Op J → Bool
  | applyForWork wasBusy => !wasBusy
  | takeFirst [] | finish => true
  | takeFirst (job :: _) => !d.canBeExecuted F job
  | _ => false

/-- The next operation of the thread looks for something to do. -/
def State.Polls [DecidableEq J] (s : State J P T σ) (thread : Thread T) : Prop :=
  ∀ op ∈ (s.stack thread).head?, op.polls F s.data = true

end Measure

section Stacks

variable [DecidableEq J] {F : Forest J P σ} {op : Op J} {ops rest : List (Op J)}

@[simp] theorem Forest.stackWork_nil : F.stackWork [] = 0 := rfl

@[simp] theorem Forest.stackWork_cons :
    F.stackWork (op :: rest) = F.opWork op + F.stackWork rest :=
  List.sum_cons

@[simp] theorem Forest.stackWork_append :
    F.stackWork (ops ++ rest) = F.stackWork ops + F.stackWork rest := by
  simp [Forest.stackWork]

/-- One operation for each of a list of jobs. -/
theorem Forest.stackWork_map {f : J → Op J} {n : ℕ} (jobs : List J)
    (h : ∀ job, F.opWork (f job) = n) : F.stackWork (jobs.map f) = jobs.length * n := by
  induction jobs with
  | nil => simp
  | cons job jobs ih =>
      rw [List.map_cons, Forest.stackWork_cons, h, ih, List.length_cons, Nat.succ_mul]
      exact Nat.add_comm _ _

end Stacks

/-! ## Aborts go inwards -/

section Abort

variable {F : Forest J P σ} {job : J}

theorem Forest.abortWorkWithin_congr {n m : ℕ} (hn : F.height job < n) (hm : F.height job < m) :
    F.abortWorkWithin n job = F.abortWorkWithin m job := by
  induction n generalizing m job with
  | zero => exact absurd hn (Nat.not_lt_zero _)
  | succ n ih =>
      cases m with
      | zero => exact absurd hm (Nat.not_lt_zero _)
      | succ m =>
          have hmap : (F.elements job).map (fun element => F.abortWorkWithin n element + 1) =
              (F.elements job).map fun element => F.abortWorkWithin m element + 1 := by
            refine List.map_congr_left fun element hmem => ?_
            have := F.height_lt _ _ ((F.mem_elements _ _).mp hmem)
            exact congrArg (· + 1) (ih (by omega) (by omega))
          simp only [Forest.abortWorkWithin, hmap]

/-- An abort stops the collection and aborts its elements. -/
theorem Forest.abortWork_eq [DecidableEq J] (job : J) :
    F.abortWork job = F.opWork (.stop job) + F.opWork (.abortElements job) + 1 := by
  have hmap : (F.elements job).map (fun element => F.abortWorkWithin (F.height job) element + 1) =
      (F.elements job).map fun element => F.abortWork element + 1 := by
    refine List.map_congr_left fun element hmem => ?_
    have := F.height_lt _ _ ((F.mem_elements _ _).mp hmem)
    rw [Forest.abortWork, Forest.abortWorkWithin_congr this (Nat.lt_succ_self _)]
  rw [Forest.abortWork, Forest.abortWorkWithin, hmap]
  simp only [Forest.opWork]
  omega

end Abort

/-! ## One operation -/

section Exec

variable [DecidableEq J] [DecidableEq P] {F : Forest J P σ} {s : State J P T σ}
  {thread : Thread T} {op : Op J} {rest : List (Op J)}

omit [DecidableEq J] [DecidableEq P] in
/-- A job that gets further has less to pay. -/
theorem Moves.placeWork_le {d : Data J P T σ} {job : J} {before after : Place T}
    (h : Moves F d thread op job before after) :
    F.placeWork job after ≤ F.placeWork job before := by
  cases h <;> simp only [Forest.placeWork] <;> omega

namespace State.Sound

theorem exec_placeWork_le (hs : s.Sound F) (hstack : s.stack thread = op :: rest)
    (hfree : ∀ mutex, wants F op = some mutex → s.data.holder mutex = none) (job : J) :
    F.placeWork job ((exec F thread op s.data).1.place job) ≤
      F.placeWork job (s.data.place job) := by
  rcases hs.exec_place hstack hfree job with hsame | hmoves
  · rw [hsame]
  · exact hmoves.placeWork_le

theorem exec_jobWork_le (hs : s.Sound F) (hstack : s.stack thread = op :: rest)
    (hfree : ∀ mutex, wants F op = some mutex → s.data.holder mutex = none) (job : J) :
    (exec F thread op s.data).1.jobWork F job ≤ s.data.jobWork F job := by
  refine Nat.add_le_add (hs.exec_placeWork_le hstack hfree job) ?_
  rcases exec_jobsStarted F thread op s.data job with hsame | rfl
  · rw [hsame]
  · have hstarted : (exec F thread (.elementStarted job) s.data).1.jobsStarted job ≠ 0 := by
      simp [exec, Data.lock]
    rw [if_neg hstarted]
    exact Nat.zero_le _

variable [Fintype J]

theorem exec_work_le (hs : s.Sound F) (hstack : s.stack thread = op :: rest)
    (hfree : ∀ mutex, wants F op = some mutex → s.data.holder mutex = none) :
    (exec F thread op s.data).1.work F ≤ s.data.work F :=
  Finset.sum_le_sum fun job _ => hs.exec_jobWork_le hstack hfree job

/-- A job pays. -/
theorem exec_work_add_le (hs : s.Sound F) (hstack : s.stack thread = op :: rest)
    (hfree : ∀ mutex, wants F op = some mutex → s.data.holder mutex = none) (job : J) (paid : ℕ)
    (hpaid : (exec F thread op s.data).1.jobWork F job + paid ≤ s.data.jobWork F job) :
    (exec F thread op s.data).1.work F + paid ≤ s.data.work F :=
  Library.sum_add_le (Finset.mem_univ job) (fun job _ => hs.exec_jobWork_le hstack hfree job) hpaid

/-- A job pays with getting further. -/
theorem exec_work_of_moved (hs : s.Sound F) (hstack : s.stack thread = op :: rest)
    (hfree : ∀ mutex, wants F op = some mutex → s.data.holder mutex = none) (job : J) (paid : ℕ)
    (hstarted : (exec F thread op s.data).1.jobsStarted = s.data.jobsStarted)
    (hpaid : F.placeWork job ((exec F thread op s.data).1.place job) + paid ≤
      F.placeWork job (s.data.place job)) :
    (exec F thread op s.data).1.work F + paid ≤ s.data.work F := by
  refine hs.exec_work_add_le hstack hfree job paid ?_
  simp only [Data.jobWork, hstarted]
  omega

/-- **What an operation leaves is less than it was**, unless it polls. -/
theorem exec_work_lt (hs : s.Sound F) (hstack : s.stack thread = op :: rest)
    (hfree : ∀ mutex, wants F op = some mutex → s.data.holder mutex = none)
    (hop : op.polls F s.data = false) :
    (exec F thread op s.data).1.work F + F.stackWork (exec F thread op s.data).2 <
      s.data.work F + F.opWork op := by
  have hle := hs.exec_work_le hstack hfree
  -- most operations leave less on the stack than they are
  have hlocal : F.stackWork (exec F thread op s.data).2 < F.opWork op →
      (exec F thread op s.data).1.work F + F.stackWork (exec F thread op s.data).2 <
        s.data.work F + F.opWork op := by
    omega
  cases op with
  | applyForWork wasBusy =>
      cases wasBusy with
      | false => cases hop
      | true => exact hlocal (by simp [exec, Forest.opWork])
  | takeFirst candidates =>
      cases candidates with
      | nil => cases hop
      | cons job candidates =>
          have hcan : s.data.canBeExecuted F job = true := by simpa [Op.polls] using hop
          have hplace := hs.queued_of_candidate hstack
          have hpaid := hs.exec_work_of_moved hstack hfree job
            (F.endWork job + 6 * F.width job + 32) (by simp [exec, hcan]; rfl) ?_
          · simp only [exec, hcan, if_true, Forest.stackWork_cons, Forest.stackWork_nil,
              Forest.opWork] at hpaid ⊢
            omega
          · simp [exec, hcan, hplace, Data.assign, Data.record, Data.moveTo, Data.unlock,
              Forest.placeWork]
            omega
  | finish => cases hop
  | enqueue jobs =>
      refine hlocal ?_
      have hjobs : F.stackWork (jobs.map .enqueueJob) = jobs.length * 1 :=
        Forest.stackWork_map jobs fun _ => rfl
      simp only [exec, Forest.stackWork_append, hjobs, Forest.stackWork_cons,
        Forest.stackWork_nil, Forest.opWork]
      omega
  | execute job =>
      refine hlocal ?_
      have hbegin : F.stackWork (beginElement F job) ≤ 2 := by
        unfold beginElement
        cases F.parent job <;> simp [Forest.opWork]
      simp only [exec]
      split <;> simp only [Forest.stackWork_append, Forest.stackWork_cons, Forest.stackWork_nil,
        Forest.opWork] <;> omega
  | elementStarted collection =>
      by_cases hfirst : s.data.jobsStarted collection = 0
      · -- the first begin is passed on, and paid for by the collection
        have hbegin : F.stackWork (beginElement F collection) ≤ 2 := by
          unfold beginElement
          cases F.parent collection <;> simp [Forest.opWork]
        have hpaid := hs.exec_work_add_le hstack hfree collection 2 ?_
        · simp only [exec, if_pos hfirst, Forest.stackWork_append, Forest.stackWork_cons,
            Forest.stackWork_nil, Forest.opWork] at hpaid ⊢
          omega
        · simp [Data.jobWork, exec, Data.lock, hfirst]
      · exact hlocal (by simp [exec, hfirst, Forest.opWork])
  | setRunning job =>
      refine hlocal ?_
      have hset : F.stackWork (setInRun F job) ≤ 1 := by
        unfold setInRun
        cases F.statusInRun job <;> simp [Forest.opWork]
      simp only [exec, Forest.stackWork_append, Forest.stackWork_cons, Forest.stackWork_nil,
        Forest.opWork]
      omega
  | run job =>
      refine hlocal ?_
      simp only [exec]
      split <;> simp only [Forest.stackWork_cons, Forest.stackWork_nil, Forest.opWork, if_true] <;>
        omega
  | defaultEnd job =>
      refine hlocal ?_
      cases hparent : F.parent job with
      | none => simp [exec, hparent, Forest.opWork, Forest.endWork]
      | some collection =>
          have hne := F.ne_of_parent hparent
          simp [exec, hparent, Forest.opWork, Forest.endWork, hne]
  | elementFinished collection job =>
      refine hlocal ?_
      have hopen : F.stackWork (if F.kind collection = .sequence then
          (F.elements collection).map Op.assignBlocker else []) ≤ F.width collection := by
        split
        · have hassign : F.stackWork ((F.elements collection).map .assignBlocker) =
              F.width collection * 1 := Forest.stackWork_map _ fun _ => rfl
          omega
        · exact Nat.zero_le _
      rcases hs.of_elementFinished (hstack ▸ List.mem_cons_self) with
        ⟨rfl, -, -, hself⟩ | ⟨-, hne, -, hself⟩
      · by_cases habort : s.data.shouldAbort job = true
        · simp [exec, Data.lock, Data.moveTo, hself, habort, Forest.opWork]
          omega
        · simp only [exec, Data.lock, Data.moveTo, hself, habort, if_true, Bool.false_eq_true,
            if_false, Forest.stackWork_append, Forest.stackWork_cons, Forest.stackWork_nil, Forest.opWork]
          simp only [Forest.width] at hopen ⊢
          omega
      · simp [exec, Data.lock, hself, Forest.opWork, hne]
  | processCompletedElement collection job =>
      refine hlocal ?_
      simp only [exec]
      split
      · split <;> simp only [Forest.stackWork_cons, Forest.stackWork_nil, Forest.opWork] <;> omega
      · simp only [Forest.stackWork_cons, Forest.stackWork_nil, Forest.opWork]
        omega
  | advance collection job =>
      refine hlocal ?_
      simp only [exec, Forest.stackWork_append]
      cases (F.elements collection)[s.data.completed collection]? <;> simp [Forest.opWork]
  | countDown collection job =>
      by_cases hlast : s.data.jobCounter collection - 1 = 0
      · -- the end has been kept back
        have hafter : (exec F thread (.countDown collection job) s.data).1.place collection =
            .held .ending thread := by
          simp [exec, Data.count, Data.decJobCounter, Data.moveTo, hlast, Data.unlock,
            Data.finalCleanup, Data.freeQueuePolicyResources, Data.recordCalls, Data.record,
            Data.setStatus]
        have hbefore : F.placeWork collection (s.data.place collection) =
            F.endWork collection + 1 := by
          rcases hs.of_completing (hstack ▸ List.mem_cons_self) (fun _ => Iff.rfl) rfl with
            ⟨-, -, hplace⟩ | ⟨hparent, -, hplace⟩
          · rw [hplace]
            rfl
          · have hwaiting : s.data.place collection = .waiting :=
              hs.books.waiting_of_last hparent (by simp [Data.books, hplace, Place.isCounted])
                (by simp [Data.books, hplace]) (by change s.data.jobCounter collection = 1; omega)
            rw [hwaiting]
            rfl
        have hpaid := hs.exec_work_of_moved hstack hfree collection (F.endWork collection + 1)
          (by simp [exec, hlast, Data.count, Data.decJobCounter, Data.moveTo]; rfl)
          (by rw [hafter, hbefore]; exact Nat.le_of_eq (Nat.zero_add _))
        have hops : (exec F thread (.countDown collection job) s.data).2 =
            [.defaultEnd collection, .clearSelf collection] := by
          simp [exec, hlast, Data.count, Data.decJobCounter, Data.moveTo]
        rw [hops]
        simp only [Forest.stackWork_cons, Forest.stackWork_nil, Forest.opWork]
        omega
      · refine hlocal ?_
        simp [exec, Data.count, Data.decJobCounter, Data.moveTo, hlast, Forest.opWork]
  | stop collection =>
      refine hlocal ?_
      simp only [exec]
      split <;> simp only [Forest.stackWork_cons, Forest.stackWork_nil, Forest.opWork] <;> omega
  | dequeueSelf collection =>
      refine hlocal ?_
      simp only [exec]
      split <;> simp only [Forest.stackWork_cons, Forest.stackWork_nil, Forest.opWork] <;> omega
  | stopElements collection =>
      refine hlocal ?_
      simp only [exec, Forest.stackWork_cons, Forest.stackWork_nil, Forest.opWork]
      omega
  | dequeueElements collection locked =>
      refine hlocal ?_
      simp only [exec]
      split
      · have hturns : F.stackWork ((F.elements collection).map
            (Op.dequeueElement collection · locked)) = F.width collection * 2 :=
          Forest.stackWork_map _ fun _ => rfl
        simp only [Forest.stackWork_append, hturns, Forest.stackWork_cons, Forest.stackWork_nil,
          Forest.opWork]
        omega
      · simp [Forest.opWork]
  | dequeueElement collection element locked =>
      have hblocker : F.stackWork (elementDequeued F collection element) ≤ 1 := by
        unfold elementDequeued
        split <;> simp [Forest.opWork]
      by_cases hmem : element ∈ s.data.assignments
      · cases locked with
        | true => exact absurd hmem (hs.notMem_of_hook (hstack ▸ List.mem_cons_self) rfl)
        | false =>
            have hplace := hs.queued_of_free (hfree _ rfl) hmem
            have hpaid := hs.exec_work_of_moved hstack hfree element (2 * F.width element + 7)
              (by simp only [exec, if_pos hmem]; rfl) ?_
            · have hops : (exec F thread (.dequeueElement collection element false) s.data).2 =
                  [.aboutToBeDequeued element, .takeAt element, .unlock .weaver,
                    .discount collection element] ++ elementDequeued F collection element := by
                simp [exec, hmem]
              rw [hops]
              simp only [Forest.stackWork_append, Forest.stackWork_cons, Forest.stackWork_nil,
                Forest.opWork]
              omega
            · have hafter : (exec F thread (.dequeueElement collection element false) s.data).1.place
                  element = .held .taken thread := by
                simp [exec, hmem, Data.take, Data.record, Data.moveTo, Data.lock]
              rw [hafter, hplace]
              simp only [Forest.placeWork]
              omega
      · refine hlocal ?_
        simp only [exec, if_neg hmem, Forest.opWork]
        omega
  | aboutToBeDequeued job =>
      refine hlocal ?_
      simp only [exec]
      split <;> simp only [Forest.stackWork_cons, Forest.stackWork_nil, Forest.opWork] <;> omega
  | requestAbort job =>
      refine hlocal ?_
      have heq := F.abortWork_eq job
      simp only [exec]
      split <;> simp only [Forest.stackWork_cons, Forest.stackWork_nil, Forest.opWork] at heq ⊢ <;>
        omega
  | abortElements collection =>
      refine hlocal ?_
      simp [exec, Forest.opWork, Forest.stackWork, Function.comp_def]
  | abortElement element =>
      refine hlocal ?_
      simp only [exec]
      split <;> simp only [Forest.stackWork_cons, Forest.stackWork_nil, Forest.opWork] <;> omega
  | _ =>
      refine hlocal ?_
      simp only [exec, Forest.stackWork_cons, Forest.stackWork_nil, Forest.opWork]
      omega

/-- An operation that polls leaves another one. -/
theorem exec_work_le_add (hs : s.Sound F) (hstack : s.stack thread = op :: rest)
    (hfree : ∀ mutex, wants F op = some mutex → s.data.holder mutex = none) :
    (exec F thread op s.data).1.work F + F.stackWork (exec F thread op s.data).2 ≤
      s.data.work F + F.opWork op := by
  by_cases hop : op.polls F s.data = true
  · refine Nat.add_le_add (hs.exec_work_le hstack hfree) ?_
    cases op with
    | applyForWork wasBusy => exact Nat.zero_le _
    | takeFirst candidates =>
        cases candidates with
        | nil => exact Nat.le_refl _
        | cons job candidates =>
            have hcan : s.data.canBeExecuted F job = false := by simpa [Op.polls] using hop
            simp [exec, hcan, Forest.opWork]
    | finish =>
        simp only [exec]
        split <;> exact Nat.le_refl _
    | _ => cases hop
  · exact Nat.le_of_lt (hs.exec_work_lt hstack hfree (Bool.eq_false_of_not_eq_true hop))

end State.Sound

end Exec

/-! ## Runs -/

section Runs

variable [DecidableEq J] [DecidableEq P] [DecidableEq T] {F : Forest J P σ}
  {s next : State J P T σ} {ok : State J P T σ → Act J T → Prop} {start : Weaver.Start J P σ}
  {thread : Thread T}

/-- Only finitely many threads have anything to do. -/
def State.Finitary (F : Forest J P σ) (s : State J P T σ) : Prop :=
  (Function.support fun thread => F.stackWork (s.stack thread)).Finite

theorem State.Finitary.step (h : s.Finitary F) {act : Act J T} (hstep : step F s act = some next) :
    next.Finitary F := by
  refine (h.insert act.thread).subset fun thread hthread => ?_
  by_cases heq : thread = act.thread
  · exact heq ▸ Set.mem_insert _ _
  · refine Set.mem_insert_of_mem _ ?_
    rw [Function.mem_support, step_stack_of_ne F hstep heq] at hthread
    exact hthread

theorem runs_finitary (run : Runs F ok start s) : s.Finitary F := by
  refine run.invariant ?_ fun _ _ _ h _ hstep => h.step hstep
  refine Set.Finite.subset Set.finite_empty fun thread hthread => ?_
  cases thread <;> exact absurd rfl hthread

variable [Fintype J]

/-- A step of a thread leaves no more to be done than there was, and less if it does not poll. -/
theorem State.Sound.runThread_work (hs : s.Sound F) (hfinitary : s.Finitary F)
    (h : s.runThread F thread = some next) :
    next.work F ≤ s.work F ∧ (¬ s.Polls F thread → next.work F < s.work F) := by
  obtain ⟨op, rest, hstack, hfree, rfl⟩ := State.runThread_eq_some h
  have hsum : (fun other => F.stackWork (Function.update s.stack thread
      ((exec F thread op s.data).2 ++ rest) other)) =
      Function.update (fun other => F.stackWork (s.stack other)) thread
        (F.stackWork (exec F thread op s.data).2 + F.stackWork rest) := by
    funext other
    by_cases heq : other = thread
    · subst heq
      rw [Function.update_self, Function.update_self, Forest.stackWork_append]
    · rw [Function.update_of_ne heq, Function.update_of_ne heq]
  have htotal := Library.finsum_update_add hfinitary thread
    (F.stackWork (exec F thread op s.data).2 + F.stackWork rest)
  rw [← hsum, hstack, Forest.stackWork_cons] at htotal
  unfold State.work
  dsimp only at htotal ⊢
  constructor
  · have hle := hs.exec_work_le_add hstack hfree
    omega
  · intro hpolls
    have hop : op.polls F s.data = false := by
      refine Bool.eq_false_of_not_eq_true fun hop => hpolls fun other hother => ?_
      rw [hstack] at hother
      exact Option.some.inj hother ▸ hop
    have hlt := hs.exec_work_lt hstack hfree hop
    omega

/-- While no new call is made there is never more left to be done, and less after every step that
does not poll. -/
theorem runs_work (run : Runs F ok start s) {states : ℕ → State J P T σ}
    {threads : ℕ → Thread T} (hstart : states 0 = s)
    (hsteps : ∀ i, step F (states i) (.run (threads i)) = some (states (i + 1))) (i : ℕ) :
    (states (i + 1)).work F ≤ (states i).work F ∧
      (¬ (states i).Polls F (threads i) → (states (i + 1)).work F < (states i).work F) := by
  have hreached : (states i).Sound F ∧ (states i).Finitary F := by
    induction i with
    | zero =>
        rw [hstart]
        exact ⟨runs_sound run, runs_finitary run⟩
    | succ i ih => exact ⟨ih.1.step (hsteps i), ih.2.step (hsteps i)⟩
  exact hreached.1.runThread_work hreached.2 (hsteps i)

/-- **Whatever has been begun comes to an end.**  While no new call is made, in every order of the
steps of the threads, all but finitely many steps look for something to do; there are no more others
than the work that was left.  The state at the beginning is that of any run, in which collections
may have been stopped and aborted at any time. -/
theorem finitely_many_steps (run : Runs F ok start s) {states : ℕ → State J P T σ}
    {threads : ℕ → Thread T} (hstart : states 0 = s)
    (hsteps : ∀ i, step F (states i) (.run (threads i)) = some (states (i + 1))) :
    {i | ¬ (states i).Polls F (threads i)}.Finite ∧
      {i | ¬ (states i).Polls F (threads i)}.ncard ≤ s.work F := by
  have hwork := runs_work run hstart hsteps
  rw [← hstart]
  exact Library.ncard_le_of_work (fun i => (states i).work F) (fun i => (hwork i).1)
    fun i hi => (hwork i).2 hi

end Runs

/-- A worker that finds nothing in the queue looks again. -/
theorem exists_poll {s : State (Fin 2) Empty Unit Unit}
    (h : s.data.assignments = [] ∧
      (s.stack (.worker 0) = [.applyForWork false] ∧ s.data.holder .weaver = none ∨
        s.stack (.worker 0) = [.takeFirst []])) :
    ∃ next, step pair s (.run (.worker 0)) = some next ∧ next.data.assignments = [] ∧
      (next.stack (.worker 0) = [.applyForWork false] ∧ next.data.holder .weaver = none ∨
        next.stack (.worker 0) = [.takeFirst []]) := by
  obtain ⟨hqueue, ⟨hstack, hfree⟩ | hstack⟩ := h
  · simp only [step, State.runThread, hstack, wants, Option.all_some, hfree, decide_true, if_true]
    refine ⟨_, rfl, hqueue, .inr ?_⟩
    simp [exec, Data.lock, hqueue]
  · simp only [step, State.runThread, hstack, wants, Option.all_none, if_true]
    refine ⟨_, rfl, hqueue, .inl ⟨?_, ?_⟩⟩ <;> simp [exec, Data.unlock]

/-- After the collection has been stopped while its element was being executed. -/
theorem finitely_many_steps_stopped : ∃ (s : State (Fin 2) Empty Unit Unit)
    (states : ℕ → State (Fin 2) Empty Unit Unit), Runs pair (fun _ _ => True) (.plain ()) s ∧
      .cleanedUp 0 ∈ s.data.log ∧ states 0 = s ∧
      {i | ¬ (states i).Polls pair (.worker 0)}.Finite ∧
      {i | ¬ (states i).Polls pair (.worker 0)}.ncard ≤ s.work pair := by
  obtain ⟨s, run, ⟨hcleaned, hstack, hqueue, hfree⟩, -⟩ :=
    exists_runs pair (fun _ _ => True) (.plain ())
      (fun s : State (Fin 2) Empty Unit Unit => .cleanedUp 0 ∈ s.data.log ∧
        s.stack (.worker 0) = [.applyForWork false] ∧ s.data.assignments = [] ∧
          s.data.holder .weaver = none)
      (List.flatten [[.enqueue () [0]], List.replicate 3 (.run (.caller ())),
        List.replicate 20 (.run (.worker 0)), [.stop () 0], List.replicate 7 (.run (.caller ())),
        List.replicate 8 (.run (.worker 0))]) (by decide +kernel)
  obtain ⟨states, hstart, hsteps⟩ :=
    Library.exists_states (fun _ => exists_poll) ⟨hqueue, .inl ⟨hstack, hfree⟩⟩
  exact ⟨s, states, run, hcleaned, hstart, finitely_many_steps run hstart hsteps⟩

end ThreadWeaver.Collection
