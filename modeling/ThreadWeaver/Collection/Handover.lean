import ThreadWeaver.Collection.Custody

/-!
# Operations keep jobs and queue in custody

An operation hands its jobs on, gives them back or takes up others, and the queue follows
the places of the jobs.
-/

namespace ThreadWeaver.Collection

open Library (owed Custody)

variable {J P T σ : Type*} [DecidableEq J] [DecidableEq P] [DecidableEq T]

omit [DecidableEq T] in
/-- A worker goes through the queue after it has taken the weaver mutex or has passed over a job. -/
theorem takeFirst_of_mem_exec {F : Forest J P σ} {thread : Thread T} {op : Op J} {d : Data J P T σ}
    {candidates : List J}
    (hnew : .takeFirst candidates ∈ (exec F thread op d).2) :
    (∃ wasBusy, op = .applyForWork wasBusy ∧ candidates = d.assignments) ∨
      ∃ job, op = .takeFirst (job :: candidates) ∧ d.canBeExecuted F job = false := by
  cases op with
  | applyForWork wasBusy =>
      refine .inl ⟨wasBusy, rfl, ?_⟩
      cases wasBusy <;> simpa [exec, Data.lock, Data.decActiveThreadCount] using hnew
  | takeFirst listed =>
      cases listed with
      | nil => simp [exec] at hnew
      | cons job listed =>
          by_cases hcan : d.canBeExecuted F job = true
          · simp [exec, hcan] at hnew
          · simp only [exec, if_neg hcan, List.mem_singleton, Op.takeFirst.injEq] at hnew
            exact .inr ⟨job, by rw [hnew], Bool.eq_false_of_not_eq_true hcan⟩
  | execute job =>
      simp only [exec] at hnew
      split at hnew <;> simp [beginElement] at hnew
  | elementStarted collection =>
      simp only [exec] at hnew
      split at hnew <;> simp [beginElement] at hnew
  | defaultEnd job =>
      simp only [exec] at hnew
      split at hnew <;> simp at hnew
  | elementFinished collection job =>
      simp only [exec] at hnew
      split at hnew
      · split at hnew
        · simp at hnew
        · split at hnew <;> simp at hnew
      · simp at hnew
  | processCompletedElement collection job =>
      simp only [exec] at hnew
      split at hnew
      · split at hnew <;> simp at hnew
      · simp at hnew
  | dequeueElement collection element locked =>
      have hnot : .takeFirst candidates ∉ elementDequeued F collection element := by
        unfold elementDequeued
        split <;> simp
      simp only [exec] at hnew
      split at hnew
      · split at hnew <;> simp [hnot] at hnew
      · exact absurd hnew hnot
  | finish | run _ | countDown _ _ | stop _ | dequeueSelf _ | dequeueElements _ _
  | aboutToBeDequeued _ | requestAbort _ | abortElement _ =>
      simp only [exec] at hnew
      split at hnew <;> simp at hnew
  | _ => simp [exec] at hnew

omit [DecidableEq J] in
theorem takeAt_kept_of_ne {stack : Thread T → List (Op J)} {thread : Thread T} {op : Op J}
    {new rest : List (Op J)} {job : J} (hstack : stack thread = op :: rest)
    (hne : op ≠ .takeAt job) (h : ∃ other, .takeAt job ∈ stack other) :
    ∃ other, .takeAt job ∈ Function.update stack thread (new ++ rest) other := by
  obtain ⟨other, hmem⟩ := h
  refine ⟨other, ?_⟩
  by_cases hother : other = thread
  · subst hother
    rw [Function.update_self]
    rw [hstack] at hmem
    exact List.mem_append_right _ ((List.mem_cons.mp hmem).resolve_left (Ne.symm hne))
  · rwa [Function.update_of_ne hother]

omit [DecidableEq J] in
theorem takeAt_kept {stack : Thread T → List (Op J)} {thread : Thread T} {op : Op J}
    {new rest : List (Op J)} (hstack : stack thread = op :: rest)
    (hne : ∀ job, op ≠ .takeAt job) (job : J) (h : ∃ other, .takeAt job ∈ stack other) :
    ∃ other, .takeAt job ∈ Function.update stack thread (new ++ rest) other :=
  takeAt_kept_of_ne hstack (hne job) h

namespace State.Sound

variable {F : Forest J P σ} {s : State J P T σ} {thread : Thread T} {op : Op J}
  {rest : List (Op J)}

/-- A collection has executed its own job, and its elements come into the hands of the thread. -/
theorem jobs_enqueueElements {collection : J} (hs : s.Sound F)
    (hstack : s.stack thread = .elementFinished collection collection :: rest)
    (hplace : s.data.place collection = .held .executing thread)
    (hflag : s.data.selfIsExecuting collection = true)
    (habort : s.data.shouldAbort collection = false) :
    Custody Op.jobs (exec F thread (.elementFinished collection collection) s.data).1.jobOwner
      (Function.update s.stack thread
        ((exec F thread (.elementFinished collection collection) s.data).2 ++ rest)) := by
  have hclosing : Custody Op.jobs (s.data.moveTo collection (.held .closing thread)).jobOwner
      (Function.update s.stack thread ([.processCompletedElement collection collection] ++ rest)) :=
    Data.pass_jobs hs.jobs hstack collection .executing .closing rfl (by simp [owed, Op.jobs])
      (by simp [owed, Op.jobs])
  have hfresh : ∀ element ∈ F.elements collection,
      (s.data.moveTo collection (.held .closing thread)).place element = .fresh := by
    intro element hmem
    have hparent := (F.mem_elements _ _).mp hmem
    refine (Function.update_of_ne (F.ne_of_parent hparent) _ _).trans ?_
    refine (hs.books.fresh _ _ hparent).mpr (hs.books.not_opened ?_)
    simp [Data.books, hplace, Place.isLate]
  rw [← Function.update_idem ([.processCompletedElement collection collection] ++ rest)]
  refine Data.pickUp_jobs hclosing (Function.update_self _ _ _) (F.elements collection)
    (F.elements_nodup collection) hfresh ?_ ?_
  · simp [exec, hflag, habort, Data.lock, Data.moveTo, Data.enqueueElements]
  · simp only [exec, Data.lock, Data.moveTo, hflag, habort, if_true, Bool.false_eq_true, if_false]
    refine (Library.owed_append_of_nil ?_).trans ?_
    · split <;> simp [Op.jobs]
    · simp [owed, Op.jobs]

/-- A collection counts a job, and goes on to its own end after the last one. -/
theorem jobs_countDown {collection job : J} (hs : s.Sound F)
    (hstack : s.stack thread = .countDown collection job :: rest) :
    Custody Op.jobs (exec F thread (.countDown collection job) s.data).1.jobOwner
      (Function.update s.stack thread
        ((exec F thread (.countDown collection job) s.data).2 ++ rest)) := by
  have hop : .countDown collection job ∈ s.stack thread := by
    rw [hstack]
    exact List.mem_cons_self
  have hcounted : Custody Op.jobs (s.data.count collection job).jobOwner
      (Function.update s.stack thread ([] ++ rest)) := by
    refine Data.settle_jobs hs.jobs hstack job _
      (if job = collection then .waiting else .reported) rfl ?_ rfl rfl
    split <;> rfl
  by_cases hlast : s.data.jobCounter collection - 1 = 0
  · have hwaiting := hs.waiting_of_countDown hop hlast
    have hplace : (exec F thread (.countDown collection job) s.data).1.place =
        Function.update (s.data.count collection job).place collection
          (.held .ending thread) := by
      simp [exec, Data.count, Data.decJobCounter, Data.moveTo, hlast, Data.unlock,
        Data.finalCleanup, Data.freeQueuePolicyResources, Data.recordCalls, Data.record,
        Data.setStatus]
    have hops : (exec F thread (.countDown collection job) s.data).2 =
        [.defaultEnd collection, .clearSelf collection] := by
      simp [exec, Data.count, Data.decJobCounter, Data.moveTo, hlast]
    rw [Data.jobOwner_of_place hplace, hops, ← Function.update_idem ([] ++ rest) _ s.stack]
    exact hcounted.take (Function.update_self _ _ _) List.flatMap_nil rfl
      (by simp [Data.jobOwner, hwaiting, Place.owner])
  · have hexec : exec F thread (.countDown collection job) s.data =
        ((s.data.count collection job).unlock (.job collection), []) := by
      simp [exec, Data.count, Data.decJobCounter, Data.moveTo, hlast]
    rw [hexec]
    exact hcounted

theorem exec_jobs (hs : s.Sound F) (hstack : s.stack thread = op :: rest)
    (hfree : ∀ mutex, wants F op = some mutex → s.data.holder mutex = none) :
    Custody Op.jobs (exec F thread op s.data).1.jobOwner
      (Function.update s.stack thread ((exec F thread op s.data).2 ++ rest)) := by
  have hop : op ∈ s.stack thread := by
    rw [hstack]
    exact List.mem_cons_self
  cases op with
  | applyForWork wasBusy =>
      refine Data.keep_jobs hs.jobs hstack ?_ rfl
      cases wasBusy <;> rfl
  | takeFirst candidates =>
      cases candidates with
      | nil => exact Data.keep_jobs hs.jobs hstack rfl rfl
      | cons job candidates =>
          by_cases hcan : s.data.canBeExecuted F job = true
          · refine Data.take_jobs hs.jobs hstack job .assigned ?_ (hs.queued_of_candidate hstack)
              rfl ?_ <;> simp only [exec, if_pos hcan] <;> rfl
          · refine Data.keep_jobs hs.jobs hstack ?_ ?_ <;> simp only [exec, if_neg hcan] <;> rfl
  | enqueue jobs =>
      refine Data.keep_jobs hs.jobs hstack rfl ?_
      simp only [exec, owed, List.flatMap_append, List.flatMap_map, List.flatMap_cons,
        List.flatMap_nil, Op.jobs, List.append_nil]
      exact List.map_eq_flatMap.symm
  | enqueueJob job => exact Data.settle_jobs hs.jobs hstack job .pending .queued rfl rfl rfl rfl
  | finish =>
      by_cases hidle : s.data.isIdleP = true
      · refine Data.keep_jobs hs.jobs hstack ?_ ?_ <;> simp only [exec, if_pos hidle] <;> rfl
      · refine Data.keep_jobs hs.jobs hstack ?_ ?_ <;> simp only [exec, if_neg hidle]
  | execute job =>
      refine Data.pass_jobs hs.jobs hstack job .assigned .executing ?_ rfl ?_ <;>
        simp only [exec] <;> split
      · rfl
      · rfl
      · exact Library.owed_append_of_nil (by simp [beginElement, Op.jobs])
      · rfl
  | elementStarted collection =>
      refine Data.keep_jobs hs.jobs hstack rfl ?_
      refine Library.owed_append_of_nil ?_
      split <;> simp [beginElement, Op.jobs]
  | setRunning job =>
      refine Data.keep_jobs hs.jobs hstack rfl ?_
      exact Library.owed_append_of_nil (by simp [setInRun, Op.jobs])
  | run job =>
      by_cases hkind : F.kind job = .plain
      · refine Data.pass_jobs hs.jobs hstack job .executing .ending ?_ rfl ?_ <;>
          simp only [exec, if_pos hkind] <;> rfl
      · refine Data.keep_jobs hs.jobs hstack ?_ ?_ <;> simp only [exec, if_neg hkind]
        · rfl
        · simp [owed, Op.jobs]
  | defaultEnd job =>
      cases hparent : F.parent job with
      | none =>
          refine Data.settle_jobs hs.jobs hstack job .ending .reported ?_ rfl rfl ?_ <;>
            simp only [exec, hparent] <;> rfl
      | some collection =>
          refine Data.pass_jobs hs.jobs hstack job .ending .reporting ?_ rfl ?_ <;>
            simp only [exec, hparent]
          · rfl
          · simp [owed, Op.jobs, F.ne_of_parent hparent]
  | elementFinished collection job =>
      rcases hs.of_elementFinished hop with ⟨rfl, hkind, hplace, hflag⟩ | ⟨-, hne, -, hflag⟩
      · by_cases habort : s.data.shouldAbort job = true
        · refine Data.pass_jobs hs.jobs hstack job .executing .closing ?_ ?_ ?_
          · simp [exec, hflag, habort, Data.lock, Data.moveTo]
          · simp [owed, Op.jobs]
          · simp [exec, hflag, habort, Data.lock, Data.moveTo, owed, Op.jobs]
        · exact hs.jobs_enqueueElements hstack hplace hflag (by simpa using habort)
      · refine Data.keep_jobs hs.jobs hstack ?_ ?_
        · simp [exec, hflag, Data.lock]
        · simp [exec, hflag, Data.lock, owed, Op.jobs, hne]
  | processCompletedElement collection job =>
      refine Data.keep_jobs hs.jobs hstack ?_ ?_ <;> simp only [exec] <;> split
      · split <;> rfl
      · rfl
      · split <;> simp [owed, Op.jobs]
      · rfl
  | advance collection job =>
      refine Data.keep_jobs hs.jobs hstack rfl ?_
      exact Library.owed_append_of_nil (by simp [Op.jobs])
  | countDown collection job => exact hs.jobs_countDown hstack
  | stop collection =>
      refine Data.keep_jobs hs.jobs hstack rfl ?_
      simp only [exec]
      split <;> rfl
  | dequeueSelf collection =>
      by_cases hmem : collection ∈ s.data.assignments
      · refine Data.take_jobs hs.jobs hstack collection .leaving ?_
          (hs.queued_of_free (hfree _ rfl) hmem) rfl ?_ <;> simp only [exec, if_pos hmem] <;> rfl
      · refine Data.keep_jobs hs.jobs hstack ?_ ?_ <;> simp only [exec, if_neg hmem]
        rfl
  | leave collection =>
      refine Data.settle_jobs hs.jobs hstack collection .leaving _ rfl ?_ rfl rfl
      split <;> rfl
  | dequeueElements collection locked =>
      refine Data.keep_jobs hs.jobs hstack rfl ?_
      simp only [exec]
      split
      · exact Library.owed_append_of_nil (by simp [Op.jobs])
      · rfl
  | dequeueElement collection element locked =>
      have hnil : (elementDequeued F collection element).flatMap Op.jobs = [] := by
        refine List.flatMap_eq_nil_iff.mpr ?_
        unfold elementDequeued
        split <;> simp [Op.jobs]
      by_cases hmem : element ∈ s.data.assignments
      · cases locked with
        | true => exact absurd hmem (hs.notMem_of_hook hop rfl)
        | false =>
            refine Data.take_jobs hs.jobs hstack element .taken ?_
              (hs.queued_of_free (hfree _ rfl) hmem) rfl ?_ <;>
              simp only [exec, if_pos hmem, Bool.false_eq_true, if_false]
            · rfl
            · simp [owed, Op.jobs, hnil]
      · refine Data.keep_jobs hs.jobs hstack ?_ ?_ <;> simp only [exec, if_neg hmem]
        simp [owed, Op.jobs, hnil]
  | discount collection element =>
      exact Data.settle_jobs hs.jobs hstack element .taken .discounted rfl rfl rfl rfl
  | checkLast collection =>
      refine Data.keep_jobs hs.jobs hstack ?_ rfl
      simp only [exec]
      split <;> rfl
  | aboutToBeDequeued job =>
      refine Data.keep_jobs hs.jobs hstack ?_ ?_ <;> simp only [exec] <;> split <;> rfl
  | requestAbort job =>
      refine Data.keep_jobs hs.jobs hstack rfl ?_
      simp only [exec]
      split <;> rfl
  | abortElements collection =>
      refine Data.keep_jobs hs.jobs hstack rfl ?_
      exact Library.owed_append_of_nil (by simp [Op.jobs])
  | abortElement element =>
      refine Data.keep_jobs hs.jobs hstack rfl ?_
      simp only [exec]
      split <;> rfl
  | _ => exact Data.keep_jobs hs.jobs hstack rfl (by simp [exec, owed, Op.jobs])

/-- A collection leaves its own execution, and its elements are in the hands of the thread if it is
not to be aborted. -/
theorem placed_elementFinished {collection : J} (hs : s.Sound F)
    (hstack : s.stack thread = .elementFinished collection collection :: rest)
    (hplace : s.data.place collection = .held .executing thread)
    (hflag : s.data.selfIsExecuting collection = true) :
    (exec F thread (.elementFinished collection collection) s.data).1.Placed F
      (Function.update s.stack thread
        ((exec F thread (.elementFinished collection collection) s.data).2 ++ rest)) := by
  let left : Data J P T σ := { s.data with
    selfIsExecuting := Function.update s.data.selfIsExecuting collection false
    place := Function.update s.data.place collection (.held .closing thread) }
  have hleft : left.Placed F (Function.update s.stack thread
      ((exec F thread (.elementFinished collection collection) s.data).2 ++ rest)) :=
    hs.execute thread collection .closing false rfl rfl rfl
      (hs.notMem_of_held hplace (by simp) (by simp)) (by simp) (takeAt_kept hstack (by simp))
  by_cases habort : s.data.shouldAbort collection = true
  · refine hleft.keep ?_ ?_ ?_ fun _ => id <;>
      simp [exec, hflag, habort, Data.lock, Data.moveTo, left]
  · refine hleft.pickUp thread ?_ ?_ (fun other => ?_) fun _ => id
    · simp [exec, hflag, habort, Data.lock, Data.moveTo, Data.enqueueElements, left]
    · simp [exec, hflag, habort, Data.lock, Data.moveTo, Data.enqueueElements, left]
    · by_cases hmem : other ∈ F.elements collection
      · have hparent := (F.mem_elements _ _).mp hmem
        have hfresh : s.data.place other = .fresh := by
          refine (hs.books.fresh _ _ hparent).mpr (hs.books.not_opened ?_)
          simp [Data.books, hplace, Place.isLate]
        refine .inr ⟨?_, ?_⟩
        · simp [exec, hflag, habort, hmem, Data.lock, Data.moveTo, Data.enqueueElements]
        · simp [left, F.ne_of_parent hparent, hfresh]
      · refine .inl ?_
        simp [exec, hflag, habort, hmem, Data.lock, Data.moveTo, Data.enqueueElements, left]

/-- A job that is counted is out of the queue and of its execution, and so is its collection when
it goes on to its end. -/
theorem placed_countDown {collection job : J} (hs : s.Sound F)
    (hstack : s.stack thread = .countDown collection job :: rest) :
    (exec F thread (.countDown collection job) s.data).1.Placed F
      (Function.update s.stack thread
        ((exec F thread (.countDown collection job) s.data).2 ++ rest)) := by
  have hop : .countDown collection job ∈ s.stack thread := by
    rw [hstack]
    exact List.mem_cons_self
  have hjob : s.data.place job = .held .closing thread ∨
      s.data.place job = .held .reporting thread := by
    rcases hs.of_completing hop (fun _ => Iff.rfl) rfl with ⟨rfl, -, h⟩ | ⟨-, -, h⟩
    · exact .inl h
    · exact .inr h
  have hcounted : (s.data.count collection job).Placed F (Function.update s.stack thread
      ((exec F thread (.countDown collection job) s.data).2 ++ rest)) := by
    refine hs.move job (if job = collection then .waiting else .reported) rfl rfl rfl ?_ ?_
      (fun _ other => ⟨?_, ?_⟩) (takeAt_kept hstack (by simp))
    · rcases hjob with h | h <;> simp [h]
    · split <;> simp
    · split <;> simp
    · rcases hjob with h | h <;> simp [h]
  by_cases hlast : s.data.jobCounter collection - 1 = 0
  · have hwaiting := hs.waiting_of_countDown hop hlast
    refine hcounted.move collection (.held .ending thread) ?_ ?_ ?_ (by simp [hwaiting])
      (by simp) (by simp [hwaiting]) (fun _ => id) <;>
      simp [exec, Data.count, Data.decJobCounter, Data.moveTo, hlast, Data.unlock,
        Data.finalCleanup, Data.freeQueuePolicyResources, Data.recordCalls, Data.record,
        Data.setStatus]
  · refine hcounted.keep ?_ ?_ ?_ (fun _ => id) <;>
      simp [exec, Data.count, Data.decJobCounter, Data.moveTo, hlast, Data.unlock]

theorem exec_placed (hs : s.Sound F) (hstack : s.stack thread = op :: rest)
    (hfree : ∀ mutex, wants F op = some mutex → s.data.holder mutex = none) :
    (exec F thread op s.data).1.Placed F
      (Function.update s.stack thread ((exec F thread op s.data).2 ++ rest)) := by
  have hop : op ∈ s.stack thread := by
    rw [hstack]
    exact List.mem_cons_self
  have hheld : ∀ {job : J} {stage : Stage}, (job, stage) ∈ op.jobs →
      s.data.place job = .held stage thread := hs.place_eq hop
  cases op with
  | applyForWork wasBusy =>
      cases wasBusy <;> exact hs.keep rfl rfl rfl (takeAt_kept hstack (by simp))
  | takeFirst candidates =>
      cases candidates with
      | nil => exact hs.keep rfl rfl rfl (takeAt_kept hstack (by simp))
      | cons job candidates =>
          by_cases hcan : s.data.canBeExecuted F job = true
          · refine hs.assign thread job .assigned ?_ ?_ ?_ (hs.queued_of_candidate hstack) (by simp)
              (takeAt_kept hstack (by simp)) <;> simp only [exec, if_pos hcan] <;> rfl
          · refine hs.keep ?_ ?_ ?_ (takeAt_kept hstack (by simp)) <;>
              simp only [exec, if_neg hcan] <;> rfl
  | enqueueJob job =>
      have hplace := hheld (List.mem_singleton.mpr rfl)
      exact hs.arrive rfl rfl rfl (hs.notMem_of_held hplace (by simp) (by simp))
        (by simp [hplace]) (takeAt_kept hstack (by simp))
  | takeAt job =>
      refine hs.takeAt rfl rfl rfl ?_ fun other hne => takeAt_kept_of_ne hstack ?_
      · rcases (hs.of_takeAt hop).2 with hplace | hplace <;> simp [hplace]
      · simpa using Ne.symm hne
  | finish =>
      refine hs.keep ?_ ?_ ?_ (takeAt_kept hstack (by simp)) <;> simp only [exec] <;> split <;> rfl
  | execute job =>
      have hplace := hheld (List.mem_singleton.mpr rfl)
      by_cases hkind : F.kind job = .plain
      · refine hs.move job (.held .executing thread) ?_ ?_ ?_ (by simp [hplace]) (by simp)
          (fun hne => absurd hkind hne) (takeAt_kept hstack (by simp)) <;>
          simp only [exec, if_pos hkind] <;> rfl
      · refine hs.execute thread job .executing true ?_ ?_ ?_
          (hs.notMem_of_held hplace (by simp) (by simp)) (by simp [hkind])
          (takeAt_kept hstack (by simp)) <;> simp only [exec, if_neg hkind] <;> rfl
  | run job =>
      have hplace := hheld (List.mem_singleton.mpr rfl)
      by_cases hkind : F.kind job = .plain
      · refine hs.move job (.held .ending thread) ?_ ?_ ?_ (by simp [hplace]) (by simp)
          (fun hne => absurd hkind hne) (takeAt_kept hstack (by simp)) <;>
          simp only [exec, if_pos hkind] <;> rfl
      · refine hs.keep ?_ ?_ ?_ (takeAt_kept hstack (by simp)) <;>
          simp only [exec, if_neg hkind] <;> rfl
  | defaultEnd job =>
      have hplace := hheld (List.mem_singleton.mpr rfl)
      cases hparent : F.parent job with
      | none =>
          refine hs.move job .reported ?_ ?_ ?_ (by simp [hplace]) (by simp) (by simp [hplace])
            (takeAt_kept hstack (by simp)) <;> simp only [exec, hparent] <;> rfl
      | some collection =>
          refine hs.move job (.held .reporting thread) ?_ ?_ ?_ (by simp [hplace]) (by simp)
            (by simp [hplace]) (takeAt_kept hstack (by simp)) <;> simp only [exec, hparent] <;> rfl
  | elementFinished collection job =>
      rcases hs.of_elementFinished hop with ⟨rfl, -, hplace, hflag⟩ | ⟨-, -, -, hflag⟩
      · exact hs.placed_elementFinished hstack hplace hflag
      · refine hs.keep ?_ ?_ ?_ (takeAt_kept hstack (by simp)) <;>
          simp only [exec, Data.lock, hflag, Bool.false_eq_true, if_false]
  | processCompletedElement collection job =>
      refine hs.keep ?_ ?_ ?_ (takeAt_kept hstack (by simp)) <;> simp only [exec] <;> split <;>
        first | rfl | (split <;> rfl)
  | countDown collection job => exact hs.placed_countDown hstack
  | stop collection => exact hs.keep rfl rfl rfl (takeAt_kept hstack (by simp))
  | dequeueSelf collection =>
      by_cases hmem : collection ∈ s.data.assignments
      · refine hs.take thread collection .leaving ?_ ?_ ?_ (hs.queued_of_free (hfree _ rfl) hmem)
          (by simp) ⟨thread, ?_⟩ (takeAt_kept hstack (by simp)) <;> simp only [exec, if_pos hmem]
        · rfl
        · rfl
        · rfl
        · simp
      · refine hs.keep ?_ ?_ ?_ (takeAt_kept hstack (by simp)) <;> simp only [exec, if_neg hmem]
  | leave collection =>
      have hplace := hheld (List.mem_singleton.mpr rfl)
      refine hs.move collection (if F.parent collection = none then .fresh else .lost) rfl rfl rfl
        (by simp [hplace]) ?_ (fun _ other => ⟨?_, by simp [hplace]⟩)
        (takeAt_kept hstack (by simp)) <;> split <;> simp
  | dequeueElement collection element locked =>
      by_cases hmem : element ∈ s.data.assignments
      · cases locked with
        | true => exact absurd hmem (hs.notMem_of_hook hop rfl)
        | false =>
            refine hs.take thread element .taken ?_ ?_ ?_ (hs.queued_of_free (hfree _ rfl) hmem)
              (by simp) ⟨thread, ?_⟩ (takeAt_kept hstack (by simp)) <;>
              simp only [exec, if_pos hmem, Bool.false_eq_true, if_false]
            · rfl
            · rfl
            · rfl
            · simp
      · refine hs.keep ?_ ?_ ?_ (takeAt_kept hstack (by simp)) <;> simp only [exec, if_neg hmem]
  | discount collection element =>
      have hplace := hheld (List.mem_singleton.mpr rfl)
      exact hs.move element .discounted rfl rfl rfl (by simp [hplace]) (by simp) (by simp [hplace])
        (takeAt_kept hstack (by simp))
  | checkLast collection =>
      refine hs.keep ?_ ?_ ?_ (takeAt_kept hstack (by simp)) <;> simp only [exec] <;> split <;> rfl
  | aboutToBeDequeued job =>
      refine hs.keep ?_ ?_ ?_ (takeAt_kept hstack (by simp)) <;> simp only [exec] <;> split <;> rfl
  | _ => exact hs.keep rfl rfl rfl (takeAt_kept hstack (by simp))

omit [DecidableEq T] in
/-- Only the holder of the weaver mutex changes the queue. -/
theorem exec_assignments (hs : s.Sound F) (hstack : s.stack thread = op :: rest) :
    (exec F thread op s.data).1.assignments = s.data.assignments ∨
      s.data.holder .weaver = some thread := by
  have hfits : Fits F op rest := by
    have hlayout := hs.layout thread
    rw [hstack] at hlayout
    exact hlayout.1
  have hholder : Releases .weaver rest → s.data.holder .weaver = some thread := by
    intro hreleases
    refine hs.holder_eq ?_
    rw [hstack]
    exact Layout.releases_cons hreleases
  cases op with
  | applyForWork wasBusy => cases wasBusy <;> exact .inl rfl
  | takeFirst candidates =>
      refine .inr (hs.holder_eq ⟨.takeFirst candidates, ?_, by simp [Op.locks]⟩)
      rw [hstack]
      exact List.mem_cons_self
  | enqueueJob job => exact .inr (hholder hfits.1)
  | takeAt job => exact .inr (hholder hfits.1)
  | finish =>
      refine .inl ?_
      simp only [exec]
      split <;> rfl
  | execute job =>
      refine .inl ?_
      simp only [exec]
      split <;> rfl
  | run job =>
      refine .inl ?_
      simp only [exec]
      split <;> rfl
  | defaultEnd job =>
      refine .inl ?_
      simp only [exec]
      split <;> rfl
  | elementFinished collection job =>
      refine .inl ?_
      simp only [exec]
      split
      · split <;> rfl
      · rfl
  | processCompletedElement collection job =>
      refine .inl ?_
      simp only [exec]
      split
      · split <;> rfl
      · rfl
  | countDown collection job =>
      refine .inl ?_
      simp only [exec]
      split <;> rfl
  | dequeueSelf collection =>
      refine .inl ?_
      simp only [exec]
      split <;> rfl
  | dequeueElement collection element locked =>
      refine .inl ?_
      simp only [exec]
      split
      · split <;> rfl
      · rfl
  | checkLast collection =>
      refine .inl ?_
      simp only [exec]
      split <;> rfl
  | aboutToBeDequeued job =>
      refine .inl ?_
      simp only [exec]
      split <;> rfl
  | _ => exact .inl rfl

theorem exec_scanning (hs : s.Sound F) (hstack : s.stack thread = op :: rest)
    (hfree : ∀ mutex, wants F op = some mutex → s.data.holder mutex = none)
    (other : Thread T) (candidates : List J)
    (hmem : .takeFirst candidates ∈
      Function.update s.stack thread ((exec F thread op s.data).2 ++ rest) other) :
    Function.update s.stack thread ((exec F thread op s.data).2 ++ rest) other =
        [.takeFirst candidates] ∧
      candidates ⊆ (exec F thread op s.data).1.assignments := by
  have hlayout := hs.layout thread
  rw [hstack] at hlayout
  by_cases hother : other = thread
  · subst hother
    rw [Function.update_self] at hmem ⊢
    rcases List.mem_append.mp hmem with hnew | hold
    · rcases takeFirst_of_mem_exec hnew with ⟨wasBusy, rfl, rfl⟩ | ⟨job, rfl, hcan⟩
      · have hrest : rest = [] := hlayout.1
        rw [hrest]
        cases wasBusy <;> exact ⟨rfl, List.Subset.refl _⟩
      · have hrest : rest = [] := hlayout.1
        have hin : .takeFirst (job :: candidates) ∈ s.stack other := by
          rw [hstack]
          exact List.mem_cons_self
        simp only [exec, hcan, Bool.false_eq_true, if_false, hrest, List.append_nil, true_and]
        exact fun x hx => (hs.scanning _ _ hin).2 (List.mem_cons_of_mem _ hx)
    · have hin : .takeFirst candidates ∈ s.stack other := by
        rw [hstack]
        exact List.mem_cons_of_mem _ hold
      have halone := (hs.scanning _ _ hin).1
      rw [hstack] at halone
      obtain ⟨rfl, rfl⟩ := List.cons.inj halone
      cases hold
  · rw [Function.update_of_ne hother] at hmem ⊢
    obtain ⟨halone, hsub⟩ := hs.scanning _ _ hmem
    refine ⟨halone, ?_⟩
    rcases hs.exec_assignments hstack with hsame | hholder
    · rwa [hsame]
    · have hmine : s.data.holder .weaver = some other :=
        hs.holder_eq ⟨_, hmem, by simp [Op.locks]⟩
      rw [hholder] at hmine
      cases hmine
      exact absurd rfl hother

end State.Sound

end ThreadWeaver.Collection
