import ThreadWeaver.Collection.Layout

/-!
# Who holds what

In every state of every run each mutex is held by the thread on whose stack it is released,
each job that is being worked on is in the hands of one thread, the queue holds the jobs
that wait in it, and the books are lawful.  `Sound` collects these facts.  What follows from
them about an operation at the top of a stack is proved here; that every step keeps them is
proved in the modules that import this one.
-/

namespace ThreadWeaver.Collection

open Library (owed Custody)

variable {J P T σ : Type*} [DecidableEq J]

namespace Data

/-- The holders of the mutexes. -/
def lockOwner (d : Data J P T σ) (mutex : Mutex J) : Option (Thread T × Unit) :=
  (d.holder mutex).map (·, ())

/-- The threads that have the jobs in hand. -/
def jobOwner (d : Data J P T σ) (job : J) : Option (Thread T × Stage) :=
  (d.place job).owner

omit [DecidableEq J] in
theorem lockOwner_eq_some {d : Data J P T σ} {mutex : Mutex J} {thread : Thread T} :
    d.lockOwner mutex = some (thread, ()) ↔ d.holder mutex = some thread := by
  simp [lockOwner]

theorem lockOwner_of_holder {d d' : Data J P T σ} {mutex : Mutex J} {holder}
    (h : d'.holder = Function.update d.holder mutex holder) :
    d'.lockOwner = Function.update d.lockOwner mutex (holder.map (·, ())) := by
  funext other
  by_cases heq : other = mutex
  · subst heq
    simp [lockOwner, h]
  · simp [lockOwner, h, Function.update_of_ne heq]

theorem jobOwner_of_place {d d' : Data J P T σ} {job : J} {place}
    (h : d'.place = Function.update d.place job place) :
    d'.jobOwner = Function.update d.jobOwner job place.owner := by
  funext other
  by_cases heq : other = job
  · subst heq
    simp [jobOwner, h]
  · simp [jobOwner, h, Function.update_of_ne heq]

/-! ## What changes hands -/

section Hand

variable [DecidableEq T] {d d' : Data J P T σ} {stack : Thread T → List (Op J)}
  {thread : Thread T} {op : Op J} {rest new : List (Op J)}

omit [DecidableEq J] in
/-- An operation that neither takes nor releases a mutex. -/
theorem keep_locks (h : Custody Op.locks d.lockOwner stack) (hstack : stack thread = op :: rest)
    (hholder : d'.holder = d.holder) (hsame : owed Op.locks new = owed Op.locks [op]) :
    Custody Op.locks d'.lockOwner (Function.update stack thread (new ++ rest)) := by
  have howner : d'.lockOwner = d.lockOwner := by
    funext mutex
    simp [lockOwner, hholder]
  rw [howner]
  exact h.keep (show stack thread = [op] ++ rest from hstack) hsame

theorem take_locks (h : Custody Op.locks d.lockOwner stack) (hstack : stack thread = op :: rest)
    (mutex : Mutex J) (hfree : d.holder mutex = none)
    (hholder : d'.holder = Function.update d.holder mutex (some thread))
    (hold : owed Op.locks [op] = []) (hnew : owed Op.locks new = [(mutex, ())]) :
    Custody Op.locks d'.lockOwner (Function.update stack thread (new ++ rest)) := by
  rw [lockOwner_of_holder hholder]
  refine h.take (show stack thread = [op] ++ rest from hstack) hold hnew ?_
  simp [lockOwner, hfree]

theorem settle_locks (h : Custody Op.locks d.lockOwner stack)
    (hstack : stack thread = op :: rest) (mutex : Mutex J)
    (hholder : d'.holder = Function.update d.holder mutex none)
    (hold : owed Op.locks [op] = [(mutex, ())]) (hnew : owed Op.locks new = []) :
    Custody Op.locks d'.lockOwner (Function.update stack thread (new ++ rest)) := by
  rw [lockOwner_of_holder hholder]
  exact h.settle (show stack thread = [op] ++ rest from hstack) hold hnew

/-- An operation that takes up no job and hands none on. -/
theorem keep_jobs (h : Custody Op.jobs d.jobOwner stack) (hstack : stack thread = op :: rest)
    (hplace : d'.place = d.place) (hsame : owed Op.jobs new = owed Op.jobs [op]) :
    Custody Op.jobs d'.jobOwner (Function.update stack thread (new ++ rest)) := by
  have howner : d'.jobOwner = d.jobOwner := by
    funext job
    simp [jobOwner, hplace]
  rw [howner]
  exact h.keep (show stack thread = [op] ++ rest from hstack) hsame

theorem pass_jobs (h : Custody Op.jobs d.jobOwner stack) (hstack : stack thread = op :: rest)
    (job : J) (stage next : Stage)
    (hplace : d'.place = Function.update d.place job (.held next thread))
    (hold : owed Op.jobs [op] = [(job, stage)]) (hnew : owed Op.jobs new = [(job, next)]) :
    Custody Op.jobs d'.jobOwner (Function.update stack thread (new ++ rest)) := by
  rw [jobOwner_of_place hplace]
  exact h.pass (show stack thread = [op] ++ rest from hstack) hold hnew

theorem settle_jobs (h : Custody Op.jobs d.jobOwner stack) (hstack : stack thread = op :: rest)
    (job : J) (stage : Stage) (place : Place T)
    (hplace : d'.place = Function.update d.place job place) (howner : place.owner = none)
    (hold : owed Op.jobs [op] = [(job, stage)]) (hnew : owed Op.jobs new = []) :
    Custody Op.jobs d'.jobOwner (Function.update stack thread (new ++ rest)) := by
  rw [jobOwner_of_place hplace, howner]
  exact h.settle (show stack thread = [op] ++ rest from hstack) hold hnew

theorem take_jobs (h : Custody Op.jobs d.jobOwner stack) (hstack : stack thread = op :: rest)
    (job : J) (stage : Stage)
    (hplace : d'.place = Function.update d.place job (.held stage thread))
    (hqueued : d.place job = .queued) (hold : owed Op.jobs [op] = [])
    (hnew : owed Op.jobs new = [(job, stage)]) :
    Custody Op.jobs d'.jobOwner (Function.update stack thread (new ++ rest)) := by
  rw [jobOwner_of_place hplace]
  refine h.take (show stack thread = [op] ++ rest from hstack) hold hnew ?_
  simp [jobOwner, hqueued, Place.owner]

/-- Fresh jobs come into the hands of the thread. -/
theorem pickUp_jobs (h : Custody Op.jobs d.jobOwner stack) {old : List (Op J)}
    (hstack : stack thread = old ++ rest) (jobs : List J) (hnodup : jobs.Nodup)
    (hfresh : ∀ job ∈ jobs, d.place job = .fresh)
    (hplace : d'.place = fun job => if job ∈ jobs then .held .pending thread else d.place job)
    (hnew : owed Op.jobs new = jobs.map (·, .pending) ++ owed Op.jobs old) :
    Custody Op.jobs d'.jobOwner (Function.update stack thread (new ++ rest)) := by
  have howner : d'.jobOwner =
      fun job => if job ∈ jobs then some (thread, .pending) else d.jobOwner job := by
    funext job
    by_cases hmem : job ∈ jobs <;> simp [jobOwner, hplace, hmem, Place.owner]
  rw [howner]
  refine h.takeAll hstack hnodup hnew fun job hmem => ?_
  simp [jobOwner, hfresh job hmem, Place.owner]

end Hand

end Data

section Exec

variable [DecidableEq P] [DecidableEq T] {F : Forest J P σ} {d : Data J P T σ}
  {stack : Thread T → List (Op J)} {thread : Thread T} {op : Op J} {rest : List (Op J)}

/-- Operations keep the mutexes in custody. -/
theorem exec_locks (h : Custody Op.locks d.lockOwner stack) (hstack : stack thread = op :: rest)
    (hfree : ∀ mutex, wants F op = some mutex → d.holder mutex = none) :
    Custody Op.locks (exec F thread op d).1.lockOwner
      (Function.update stack thread ((exec F thread op d).2 ++ rest)) := by
  cases op with
  | applyForWork wasBusy =>
      refine Data.take_locks h hstack .weaver (hfree _ rfl) ?_ rfl rfl
      cases wasBusy <;> rfl
  | takeFirst candidates =>
      cases candidates with
      | nil => exact Data.settle_locks h hstack .weaver rfl rfl rfl
      | cons job candidates =>
          by_cases hcan : d.canBeExecuted F job = true
          · refine Data.settle_locks h hstack .weaver ?_ rfl ?_ <;>
              simp only [exec, if_pos hcan] <;> rfl
          · refine Data.keep_locks h hstack ?_ ?_ <;> simp only [exec, if_neg hcan] <;> rfl
  | enqueue jobs =>
      refine Data.take_locks h hstack .weaver (hfree _ rfl) rfl rfl ?_
      exact Library.owed_append_of_nil (by simp [Op.locks])
  | finish =>
      by_cases hidle : d.isIdleP = true
      · refine Data.keep_locks h hstack ?_ ?_ <;> simp only [exec, if_pos hidle] <;> rfl
      · refine Data.keep_locks h hstack ?_ ?_ <;> simp only [exec, if_neg hidle]
  | unlock mutex => exact Data.settle_locks h hstack mutex rfl rfl rfl
  | execute job =>
      by_cases hkind : F.kind job = .plain
      · refine Data.keep_locks h hstack ?_ ?_ <;> simp only [exec, if_pos hkind]
        · rfl
        · exact Library.owed_append_of_nil (by simp [beginElement, Op.locks])
      · refine Data.keep_locks h hstack ?_ ?_ <;> simp only [exec, if_neg hkind] <;> rfl
  | elementStarted collection =>
      refine Data.take_locks h hstack (.job collection) (hfree _ rfl) rfl rfl ?_
      refine Library.owed_append_of_nil ?_
      split <;> simp [beginElement, Op.locks]
  | setRunning job =>
      exact Data.keep_locks h hstack rfl (Library.owed_append_of_nil (by simp [setInRun, Op.locks]))
  | run job =>
      by_cases hkind : F.kind job = .plain
      · refine Data.keep_locks h hstack ?_ ?_ <;> simp only [exec, if_pos hkind] <;> rfl
      · refine Data.keep_locks h hstack ?_ ?_ <;> simp only [exec, if_neg hkind] <;> rfl
  | defaultEnd job =>
      cases hparent : F.parent job with
      | none => refine Data.keep_locks h hstack ?_ ?_ <;> simp only [exec, hparent] <;> rfl
      | some collection =>
          refine Data.keep_locks h hstack ?_ ?_ <;> simp only [exec, hparent] <;> rfl
  | elementFinished collection job =>
      refine Data.take_locks h hstack (.job collection) (hfree _ rfl) ?_ rfl ?_ <;> simp only [exec]
      · split
        · split <;> rfl
        · rfl
      · split
        · split
          · rfl
          · refine Library.owed_append_of_nil ?_
            split <;> simp [Op.locks]
        · rfl
  | processCompletedElement collection job =>
      by_cases hkind : F.kind collection = .sequence
      · by_cases hstatus : d.updatedStatus job = .running
        · refine Data.keep_locks h hstack ?_ ?_ <;>
            simp only [exec, if_pos hkind, if_pos hstatus] <;> rfl
        · refine Data.settle_locks h hstack (.job collection) ?_ rfl ?_ <;>
            simp only [exec, if_pos hkind, if_neg hstatus] <;> rfl
      · refine Data.keep_locks h hstack ?_ ?_ <;> simp only [exec, if_neg hkind] <;> rfl
  | restoreStatus collection job status =>
      exact Data.take_locks h hstack (.job collection) (hfree _ rfl) rfl rfl rfl
  | advance collection job =>
      refine Data.keep_locks h hstack rfl ?_
      exact Library.owed_append_of_nil (by simp [Op.locks])
  | countDown collection job =>
      refine Data.settle_locks h hstack (.job collection) ?_ rfl ?_ <;> simp only [exec] <;>
        split <;> rfl
  | stop collection =>
      refine Data.keep_locks h hstack ?_ ?_ <;> simp only [exec]
      split <;> rfl
  | dequeueSelf collection =>
      by_cases hmem : collection ∈ d.assignments
      · refine Data.take_locks h hstack .weaver (hfree _ rfl) ?_ rfl ?_ <;>
          simp only [exec, if_pos hmem] <;> rfl
      · refine Data.keep_locks h hstack ?_ ?_ <;> simp only [exec, if_neg hmem]
        rfl
  | stopElements collection =>
      exact Data.take_locks h hstack (.job collection) (hfree _ rfl) rfl rfl rfl
  | dequeueElements collection locked =>
      refine Data.keep_locks h hstack rfl ?_
      simp only [exec]
      split
      · exact Library.owed_append_of_nil (by simp [Op.locks])
      · rfl
  | dequeueElement collection element locked =>
      have hblocker : ∀ op ∈ elementDequeued F collection element, op.locks = [] := by
        unfold elementDequeued
        split <;> simp [Op.locks]
      have hnil : (elementDequeued F collection element).flatMap Op.locks = [] :=
        List.flatMap_eq_nil_iff.mpr hblocker
      by_cases hmem : element ∈ d.assignments
      · cases locked with
        | true =>
            refine Data.keep_locks h hstack ?_ ?_ <;> simp only [exec, if_pos hmem, if_true]
            · rfl
            · simp [owed, Op.locks, hnil]
        | false =>
            refine Data.take_locks h hstack .weaver (hfree _ rfl) ?_ rfl ?_ <;>
              simp only [exec, if_pos hmem, Bool.false_eq_true, if_false]
            · rfl
            · simp [owed, Op.locks, hnil]
      · refine Data.keep_locks h hstack ?_ ?_ <;> simp only [exec, if_neg hmem]
        simp [owed, Op.locks, hnil]
  | checkLast collection =>
      refine Data.keep_locks h hstack ?_ rfl
      simp only [exec]
      split <;> rfl
  | aboutToBeDequeued job =>
      by_cases hkind : F.kind job = .plain
      · refine Data.keep_locks h hstack ?_ ?_ <;> simp only [exec, if_pos hkind]
        rfl
      · refine Data.take_locks h hstack (.job job) (hfree _ rfl) ?_ rfl ?_ <;>
          simp only [exec, if_neg hkind] <;> rfl
  | resetApi collection => exact Data.settle_locks h hstack (.job collection) rfl rfl rfl
  | requestAbort job =>
      refine Data.keep_locks h hstack rfl ?_
      simp only [exec]
      split <;> rfl
  | abortElements collection =>
      refine Data.take_locks h hstack (.job collection) (hfree _ rfl) rfl rfl ?_
      exact Library.owed_append_of_nil (by simp [Op.locks])
  | abortElement element =>
      refine Data.keep_locks h hstack rfl ?_
      simp only [exec]
      split <;> rfl
  | _ => exact Data.keep_locks h hstack rfl rfl

end Exec

/-! ## Sound states -/

/-- The queue and the flag `selfIsExecuting` follow the places of the jobs. -/
structure Data.Placed (F : Forest J P σ) (d : Data J P T σ) (stack : Thread T → List (Op J)) :
    Prop where
  nodup : d.assignments.Nodup
  queued : ∀ job, d.place job = .queued → job ∈ d.assignments
  listed : ∀ job ∈ d.assignments,
    d.place job = .queued ∨ ∃ thread, .takeAt job ∈ stack thread
  executing : ∀ collection, d.selfIsExecuting collection = true ↔
    F.kind collection ≠ .plain ∧ ∃ thread, d.place collection = .held .executing thread

namespace Data.Placed

variable {F : Forest J P σ} {d d' : Data J P T σ} {stack stack' : Thread T → List (Op J)}
  {thread : Thread T} {job : J} {place : Place T} {stage : Stage}

omit [DecidableEq J] in
/-- Nobody enters or leaves the queue or its own execution. -/
theorem frame (h : d.Placed F stack) (hassignments : d'.assignments = d.assignments)
    (hflag : d'.selfIsExecuting = d.selfIsExecuting)
    (hqueued : ∀ job, d'.place job = .queued ↔ d.place job = .queued)
    (hexecuting : ∀ job, F.kind job ≠ .plain → ∀ thread,
      d'.place job = .held .executing thread ↔ d.place job = .held .executing thread)
    (htakeAt : ∀ job, (∃ thread, .takeAt job ∈ stack thread) →
      ∃ thread, .takeAt job ∈ stack' thread) : d'.Placed F stack' where
  nodup := hassignments ▸ h.nodup
  queued job hplace := by
    rw [hassignments]
    exact h.queued job ((hqueued job).mp hplace)
  listed job hmem := by
    rw [hassignments] at hmem
    rw [hqueued]
    exact (h.listed job hmem).imp_right (htakeAt job)
  executing collection := by
    rw [hflag, h.executing]
    refine and_congr_right fun hkind => exists_congr fun other => ?_
    exact (hexecuting collection hkind other).symm

omit [DecidableEq J] in
theorem keep (h : d.Placed F stack) (hassignments : d'.assignments = d.assignments)
    (hflag : d'.selfIsExecuting = d.selfIsExecuting) (hplace : d'.place = d.place)
    (htakeAt : ∀ job, (∃ thread, .takeAt job ∈ stack thread) →
      ∃ thread, .takeAt job ∈ stack' thread) : d'.Placed F stack' :=
  h.frame hassignments hflag (by simp [hplace]) (by simp [hplace]) htakeAt

/-- One job goes to another place, and the queue and its flag follow it. -/
theorem relocate (h : d.Placed F stack) (hplace : d'.place = Function.update d.place job place)
    (hnodup : d'.assignments.Nodup)
    (hothers : ∀ other ≠ job, other ∈ d'.assignments ↔ other ∈ d.assignments)
    (hqueued : place = .queued → job ∈ d'.assignments)
    (hlisted : job ∈ d'.assignments → place = .queued ∨ ∃ thread, .takeAt job ∈ stack' thread)
    (hflag : ∀ other ≠ job, d'.selfIsExecuting other = d.selfIsExecuting other)
    (hexecuting : d'.selfIsExecuting job = true ↔
      F.kind job ≠ .plain ∧ ∃ thread, place = .held .executing thread)
    (htakeAt : ∀ other ≠ job, (∃ thread, .takeAt other ∈ stack thread) →
      ∃ thread, .takeAt other ∈ stack' thread) : d'.Placed F stack' where
  nodup := hnodup
  queued other hother := by
    by_cases heq : other = job
    · subst heq
      rw [hplace, Function.update_self] at hother
      exact hqueued hother
    · rw [hplace, Function.update_of_ne heq] at hother
      exact (hothers other heq).mpr (h.queued other hother)
  listed other hmem := by
    by_cases heq : other = job
    · subst heq
      rw [hplace, Function.update_self]
      exact hlisted hmem
    · rw [hplace, Function.update_of_ne heq]
      exact (h.listed other ((hothers other heq).mp hmem)).imp_right (htakeAt other heq)
  executing collection := by
    by_cases heq : collection = job
    · subst heq
      rw [hplace, Function.update_self]
      exact hexecuting
    · rw [hplace, Function.update_of_ne heq, hflag collection heq]
      exact h.executing collection

/-- A job that is neither in the queue nor in its own execution goes on to such a place. -/
theorem move (h : d.Placed F stack) (job : J) (place : Place T)
    (hassignments : d'.assignments = d.assignments)
    (hflag : d'.selfIsExecuting = d.selfIsExecuting)
    (hplace : d'.place = Function.update d.place job place)
    (hbefore : d.place job ≠ .queued) (hafter : place ≠ .queued)
    (hexecuting : F.kind job ≠ .plain → ∀ thread,
      place ≠ .held .executing thread ∧ d.place job ≠ .held .executing thread)
    (htakeAt : ∀ job, (∃ thread, .takeAt job ∈ stack thread) →
      ∃ thread, .takeAt job ∈ stack' thread) : d'.Placed F stack' := by
  refine h.frame hassignments hflag (fun other => ?_) (fun other hkind worker => ?_) htakeAt
  · rw [hplace]
    by_cases heq : other = job
    · subst heq
      simp [hbefore, hafter]
    · rw [Function.update_of_ne heq]
  · rw [hplace]
    by_cases heq : other = job
    · subst heq
      simp [hexecuting hkind worker]
    · rw [Function.update_of_ne heq]

/-- A job in the queue is in the hands of a thread that is about to take it out. -/
theorem take (h : d.Placed F stack) (thread : Thread T) (job : J) (stage : Stage)
    (hassignments : d'.assignments = d.assignments)
    (hflag : d'.selfIsExecuting = d.selfIsExecuting)
    (hplace : d'.place = Function.update d.place job (.held stage thread))
    (hqueued : d.place job = .queued) (hstage : stage ≠ .executing)
    (hnew : ∃ other, .takeAt job ∈ stack' other)
    (htakeAt : ∀ job, (∃ thread, .takeAt job ∈ stack thread) →
      ∃ thread, .takeAt job ∈ stack' thread) : d'.Placed F stack' := by
  refine h.relocate hplace (hassignments ▸ h.nodup) (fun other _ => by rw [hassignments])
    (fun hplace => by cases hplace) (fun _ => .inr hnew) (fun other _ => by rw [hflag]) ?_
    fun other _ => htakeAt other
  rw [hflag, h.executing]
  simp [hqueued, hstage]

/-- A job that is not in the list enters the queue. -/
theorem arrive {priority : J → ℤ} (h : d.Placed F stack)
    (hassignments : d'.assignments = Library.insertFromBack priority job d.assignments)
    (hflag : d'.selfIsExecuting = d.selfIsExecuting)
    (hplace : d'.place = Function.update d.place job .queued) (hnot : job ∉ d.assignments)
    (hbefore : ∀ thread, d.place job ≠ .held .executing thread)
    (htakeAt : ∀ job, (∃ thread, .takeAt job ∈ stack thread) →
      ∃ thread, .takeAt job ∈ stack' thread) : d'.Placed F stack' := by
  have hmem : ∀ other, other ∈ d'.assignments ↔ other = job ∨ other ∈ d.assignments := by
    intro other
    rw [hassignments]
    exact Library.mem_insertFromBack
  refine h.relocate hplace ?_ (fun other hne => by simp [hmem, hne]) (fun _ => by simp [hmem])
    (fun _ => .inl rfl) (fun other _ => by rw [hflag]) ?_ fun other _ => htakeAt other
  · rw [hassignments]
    exact (Library.insertFromBack_perm priority job _).nodup_iff.mpr
      (List.nodup_cons.mpr ⟨hnot, h.nodup⟩)
  · rw [hflag, h.executing]
    simp [hbefore]

/-- A worker takes a job out of the queue. -/
theorem assign (h : d.Placed F stack) (thread : Thread T) (job : J) (stage : Stage)
    (hassignments : d'.assignments = d.assignments.erase job)
    (hflag : d'.selfIsExecuting = d.selfIsExecuting)
    (hplace : d'.place = Function.update d.place job (.held stage thread))
    (hqueued : d.place job = .queued) (hstage : stage ≠ .executing)
    (htakeAt : ∀ job, (∃ thread, .takeAt job ∈ stack thread) →
      ∃ thread, .takeAt job ∈ stack' thread) : d'.Placed F stack' := by
  refine h.relocate hplace (hassignments ▸ h.nodup.erase job) (fun other hne => ?_)
    (fun hplace => by cases hplace) (fun hmem => ?_) (fun other _ => by rw [hflag]) ?_
    fun other _ => htakeAt other
  · rw [hassignments]
    exact List.mem_erase_of_ne hne
  · rw [hassignments] at hmem
    exact absurd hmem h.nodup.not_mem_erase
  · rw [hflag, h.executing]
    simp [hqueued, hstage]

/-- A job that is in other hands is taken out of the list. -/
theorem takeAt (h : d.Placed F stack) (hassignments : d'.assignments = d.assignments.erase job)
    (hflag : d'.selfIsExecuting = d.selfIsExecuting) (hplace : d'.place = d.place)
    (hbefore : d.place job ≠ .queued)
    (htakeAt : ∀ other ≠ job, (∃ thread, .takeAt other ∈ stack thread) →
      ∃ thread, .takeAt other ∈ stack' thread) : d'.Placed F stack' := by
  have hsame : d'.place = Function.update d.place job (d.place job) := by
    rw [hplace, Function.update_eq_self]
  refine h.relocate hsame (hassignments ▸ h.nodup.erase job) (fun other hne => ?_)
    (fun hqueued => absurd hqueued hbefore) (fun hmem => ?_) (fun other _ => by rw [hflag]) ?_
    htakeAt
  · rw [hassignments]
    exact List.mem_erase_of_ne hne
  · rw [hassignments] at hmem
    exact absurd hmem h.nodup.not_mem_erase
  · rw [hflag]
    exact h.executing job

/-- A job that nobody is about to take out goes on, and the flag says whether it is in its own
execution. -/
theorem execute (h : d.Placed F stack) (thread : Thread T) (job : J) (stage : Stage)
    (flag : Bool) (hassignments : d'.assignments = d.assignments)
    (hflag : d'.selfIsExecuting = Function.update d.selfIsExecuting job flag)
    (hplace : d'.place = Function.update d.place job (.held stage thread))
    (hnot : job ∉ d.assignments)
    (hexecuting : flag = true ↔ F.kind job ≠ .plain ∧ stage = .executing)
    (htakeAt : ∀ job, (∃ thread, .takeAt job ∈ stack thread) →
      ∃ thread, .takeAt job ∈ stack' thread) : d'.Placed F stack' := by
  refine h.relocate hplace (hassignments ▸ h.nodup) (fun other _ => by rw [hassignments])
    (fun hqueued => by cases hqueued) (fun hmem => absurd (hassignments ▸ hmem) hnot)
    (fun other hne => by rw [hflag, Function.update_of_ne hne]) ?_ fun other _ => htakeAt other
  rw [hflag, Function.update_self, hexecuting]
  simp

omit [DecidableEq J] in
theorem pickUp (h : d.Placed F stack) (thread : Thread T)
    (hassignments : d'.assignments = d.assignments)
    (hflag : d'.selfIsExecuting = d.selfIsExecuting)
    (hplace : ∀ job, d'.place job = d.place job ∨
      d'.place job = .held .pending thread ∧ d.place job = .fresh)
    (htakeAt : ∀ job, (∃ thread, .takeAt job ∈ stack thread) →
      ∃ thread, .takeAt job ∈ stack' thread) : d'.Placed F stack' := by
  refine h.frame hassignments hflag (fun job => ?_) (fun job _ worker => ?_) htakeAt <;>
  · rcases hplace job with heq | ⟨hafter, hbefore⟩
    · rw [heq]
    · simp [hafter, hbefore]

end Data.Placed

/-- Who holds what, and what the queue and the books say about it. -/
structure State.Sound (F : Forest J P σ) (s : State J P T σ) : Prop
    extends Data.Placed F s.data s.stack where
  layout : ∀ thread, Layout F (s.stack thread)
  locks : Custody Op.locks s.data.lockOwner s.stack
  jobs : Custody Op.jobs s.data.jobOwner s.stack
  books : s.data.books.Lawful F
  scanning : ∀ thread candidates, .takeFirst candidates ∈ s.stack thread →
    s.stack thread = [.takeFirst candidates] ∧ candidates ⊆ s.data.assignments

namespace State.Sound

variable {F : Forest J P σ} {s : State J P T σ} {thread : Thread T} {op : Op J}
  {rest : List (Op J)} {job collection element : J} {stage : Stage} {mutex : Mutex J}

theorem place_eq (hs : s.Sound F) (hop : op ∈ s.stack thread)
    (hjobs : (job, stage) ∈ op.jobs) : s.data.place job = .held stage thread := by
  have howner := hs.jobs.owner_eq hop hjobs
  rw [Data.jobOwner] at howner
  cases hplace : s.data.place job with
  | held stage' thread' =>
      rw [hplace] at howner
      cases howner
      rfl
  | _ =>
      rw [hplace] at howner
      cases howner

theorem op_of_held (hs : s.Sound F) (hplace : s.data.place job = .held stage thread) :
    ∃ op ∈ s.stack thread, (job, stage) ∈ op.jobs :=
  hs.jobs.exists_op (by simp [Data.jobOwner, hplace, Place.owner])

theorem holder_eq (hs : s.Sound F) (hreleases : Releases mutex (s.stack thread)) :
    s.data.holder mutex = some thread := by
  obtain ⟨op, hop, hlocks⟩ := hreleases
  exact Data.lockOwner_eq_some.mp (hs.locks.owner_eq hop hlocks)

theorem releases_of_holder (hs : s.Sound F) (hholder : s.data.holder mutex = some thread) :
    Releases mutex (s.stack thread) :=
  hs.locks.exists_op (Data.lockOwner_eq_some.mpr hholder)

theorem fits (hs : s.Sound F) (hop : op ∈ s.stack thread) :
    ∃ ops rest, s.stack thread = ops ++ op :: rest ∧ Fits F op rest :=
  (hs.layout thread).of_mem hop

theorem of_takeAt (hs : s.Sound F) (hop : .takeAt job ∈ s.stack thread) :
    s.data.holder .weaver = some thread ∧
      (s.data.place job = .held .taken thread ∨ s.data.place job = .held .leaving thread) := by
  obtain ⟨ops, rest, hsplit, hreleases, hhand⟩ := hs.fits hop
  have hsub : ∀ op ∈ rest, op ∈ s.stack thread := by
    intro op hmem
    rw [hsplit]
    exact List.mem_append_right _ (List.mem_cons_of_mem _ hmem)
  refine ⟨hs.holder_eq ?_, ?_⟩
  · rw [hsplit]
    exact Layout.releases_append _ (Layout.releases_cons hreleases)
  · rcases hhand with ⟨c, hmem⟩ | hmem
    · exact .inl (hs.place_eq (hsub _ hmem) (by simp [Op.jobs]))
    · exact .inr (hs.place_eq (hsub _ hmem) (by simp [Op.jobs]))

theorem of_setStatus {status : Status} (hs : s.Sound F)
    (hop : .setStatus job status ∈ s.stack thread) :
    F.statusInRun job = some status ∧ s.data.place job = .held .executing thread := by
  obtain ⟨ops, rest, hsplit, hstatus, hrun⟩ := hs.fits hop
  have hbelow : .run job ∈ s.stack thread := by
    rw [hsplit]
    exact List.mem_append_right _ (List.mem_cons_of_mem _ hrun)
  exact ⟨hstatus, hs.place_eq hbelow (List.mem_singleton.mpr rfl)⟩

/-- While an element is being enqueued, its collection completes its own job. -/
theorem of_pending (hs : s.Sound F) (hparent : F.parent element = some collection)
    (hplace : s.data.place element = .held .pending thread) :
    .processCompletedElement collection collection ∈ s.stack thread := by
  obtain ⟨op, hop, hjobs⟩ := hs.op_of_held hplace
  obtain ⟨ops, rest, hsplit, hfits⟩ := hs.fits hop
  suffices hbelow : .processCompletedElement collection collection ∈ rest by
    rw [hsplit]
    exact List.mem_append_right _ (List.mem_cons_of_mem _ hbelow)
  cases op with
  | enqueue jobs =>
      have hmem : element ∈ jobs := by simpa [Op.jobs] using hjobs
      exact hfits element hmem collection hparent
  | enqueueJob job =>
      obtain rfl : element = job := by simpa [Op.jobs] using hjobs
      exact hfits.2 collection hparent
  | elementFinished _ _ | processCompletedElement _ _ | restoreStatus _ _ _ | advance _ _
  | countDown _ _ =>
      simp only [Op.jobs, List.mem_singleton, Prod.mk.injEq] at hjobs
      have hstage := hjobs.2
      split at hstage <;> cases hstage
  | _ => simp [Op.jobs] at hjobs

/-- While an element is being dequeued by its collection, the mutex of the collection is held. -/
theorem of_taken (hs : s.Sound F) (hparent : F.parent element = some collection)
    (hplace : s.data.place element = .held .taken thread) :
    s.data.holder (.job collection) = some thread := by
  obtain ⟨op, hop, hjobs⟩ := hs.op_of_held hplace
  obtain ⟨ops, rest, hsplit, hfits⟩ := hs.fits hop
  refine hs.holder_eq ?_
  rw [hsplit]
  refine Layout.releases_append ops (Layout.releases_cons ?_)
  cases op with
  | discount other job =>
      obtain rfl : element = job := by simpa [Op.jobs] using hjobs
      obtain rfl : collection = other := Option.some.inj (hparent.symm.trans hfits.1)
      exact hfits.2
  | elementFinished _ _ | processCompletedElement _ _ | restoreStatus _ _ _ | advance _ _
  | countDown _ _ =>
      simp only [Op.jobs, List.mem_singleton, Prod.mk.injEq] at hjobs
      have hstage := hjobs.2
      split at hstage <;> cases hstage
  | _ => simp [Op.jobs] at hjobs

theorem queued_of_free (hs : s.Sound F) (hfree : s.data.holder .weaver = none)
    (hmem : job ∈ s.data.assignments) : s.data.place job = .queued := by
  rcases hs.listed job hmem with hqueued | ⟨thread, hop⟩
  · exact hqueued
  · rw [(hs.of_takeAt hop).1] at hfree
    cases hfree

/-- The first candidate of a worker waits in the queue. -/
theorem queued_of_candidate (hs : s.Sound F) {candidates : List J}
    (hstack : s.stack thread = .takeFirst (job :: candidates) :: rest) :
    s.data.place job = .queued := by
  have hop : .takeFirst (job :: candidates) ∈ s.stack thread := by
    rw [hstack]
    exact List.mem_cons_self
  obtain ⟨halone, hsub⟩ := hs.scanning thread _ hop
  rcases hs.listed job (hsub List.mem_cons_self) with hqueued | ⟨other, ht⟩
  · exact hqueued
  · have hmine : s.data.holder .weaver = some thread :=
      hs.holder_eq ⟨_, hop, by simp [Op.locks]⟩
    have hother := (hs.of_takeAt ht).1
    rw [hmine] at hother
    cases hother
    simp [halone] at ht

theorem fresh_of_takeAt (hs : s.Sound F) (hop : .takeAt collection ∈ s.stack thread)
    (hparent : F.parent element = some collection) : s.data.place element = .fresh := by
  have hunopened : s.data.opened collection = false := by
    refine hs.books.not_opened ?_
    rcases (hs.of_takeAt hop).2 with hplace | hplace <;>
      simp [Data.books, hplace, Place.isLate]
  exact (hs.books.fresh _ _ hparent).mpr hunopened

theorem notMem_of_held (hs : s.Sound F) (hplace : s.data.place job = .held stage thread)
    (htaken : stage ≠ .taken) (hleaving : stage ≠ .leaving) : job ∉ s.data.assignments := by
  intro hmem
  rcases hs.listed job hmem with hqueued | ⟨other, ht⟩
  · rw [hplace] at hqueued
    cases hqueued
  · rcases (hs.of_takeAt ht).2 with h | h <;>
    · rw [hplace] at h
      cases h
      contradiction

/-- The elements of a collection that is in the queue are not. -/
theorem notMem_of_hook (hs : s.Sound F) {queueApiIsLocked : Bool}
    (hop : .dequeueElement collection element queueApiIsLocked ∈ s.stack thread)
    (hlocked : queueApiIsLocked = true) : element ∉ s.data.assignments := by
  obtain ⟨ops, rest, hsplit, hparent, -, hhook⟩ := hs.fits hop
  have htakeAt : .takeAt collection ∈ s.stack thread := by
    rw [hsplit]
    exact List.mem_append_right _ (List.mem_cons_of_mem _ (hhook hlocked).2)
  have hfresh := hs.fresh_of_takeAt htakeAt hparent
  intro hmem
  rcases hs.listed element hmem with hqueued | ⟨other, ht⟩
  · rw [hfresh] at hqueued
    cases hqueued
  · rcases (hs.of_takeAt ht).2 with hplace | hplace <;>
    · rw [hfresh] at hplace
      cases hplace

/-- What a collection is told about: its own job, which it executes, or one of its
elements. -/
theorem of_elementFinished (hs : s.Sound F)
    (hop : .elementFinished collection job ∈ s.stack thread) :
    job = collection ∧ F.kind collection ≠ .plain ∧
        s.data.place collection = .held .executing thread ∧
        s.data.selfIsExecuting collection = true ∨
      F.parent job = some collection ∧ job ≠ collection ∧
        s.data.place job = .held .reporting thread ∧
        s.data.selfIsExecuting collection = false := by
  obtain ⟨ops, rest, -, hconcerns⟩ := hs.fits hop
  rcases hconcerns with ⟨rfl, hkind⟩ | hparent
  · have hplace : s.data.place job = .held .executing thread :=
      hs.place_eq hop (by simp [Op.jobs])
    exact .inl ⟨rfl, hkind, hplace, (hs.executing job).mpr ⟨hkind, thread, hplace⟩⟩
  · have hne := F.ne_of_parent hparent
    have hplace : s.data.place job = .held .reporting thread :=
      hs.place_eq hop (by simp [Op.jobs, hne])
    refine .inr ⟨hparent, hne, hplace, ?_⟩
    by_contra hflag
    obtain ⟨-, other, hexecuting⟩ := (hs.executing collection).mp (by simpa using hflag)
    have hopened := hs.books.opened_of_ne_fresh hparent (by simp [Data.books, hplace])
    have hlate := hs.books.late collection hopened
    simp [Data.books, hexecuting, Place.isLate] at hlate

theorem of_completing (hs : s.Sound F) (hop : op ∈ s.stack thread)
    (hfits : ∀ rest, Fits F op rest ↔ F.Concerns collection job)
    (hjobs : op.jobs = [(job, if job = collection then .closing else .reporting)]) :
    job = collection ∧ F.kind collection ≠ .plain ∧
        s.data.place collection = .held .closing thread ∨
      F.parent job = some collection ∧ job ≠ collection ∧
        s.data.place job = .held .reporting thread := by
  obtain ⟨ops, rest, -, hfit⟩ := hs.fits hop
  rcases (hfits rest).mp hfit with ⟨rfl, hkind⟩ | hparent
  · exact .inl ⟨rfl, hkind, hs.place_eq hop (by simp [hjobs])⟩
  · have hne := F.ne_of_parent hparent
    exact .inr ⟨hparent, hne, hs.place_eq hop (by simp [hjobs, hne])⟩

theorem waiting_of_countDown (hs : s.Sound F)
    (hop : .countDown collection job ∈ s.stack thread)
    (hlast : s.data.jobCounter collection - 1 = 0) :
    (s.data.count collection job).place collection = .waiting := by
  rcases hs.of_completing hop (fun _ => Iff.rfl) rfl with ⟨rfl, -, -⟩ | ⟨hparent, hne, hplace⟩
  · simp [Data.count, Data.decJobCounter, Data.moveTo]
  · have hwaiting : s.data.place collection = .waiting :=
      hs.books.waiting_of_last hparent (by simp [Data.books, hplace, Place.isCounted])
        (by simp [Data.books, hplace]) (by simp only [Data.books]; omega)
    simp [Data.count, Data.decJobCounter, Data.moveTo, Function.update_of_ne (Ne.symm hne),
      hwaiting]

end State.Sound

end ThreadWeaver.Collection
