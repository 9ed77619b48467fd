import ThreadWeaver.Collection.Idle
import ThreadWeaver.Library.Pool

/-!
# Nested work is work of a pool

What the weaver does with nested collections, seen from outside of them: the jobs that wait in the
queue, collections and elements alike, and the workers that are active.  Every step of the threads
is a sequence of moves of this pool, also where `stop` and `requestAbort` are called.

The list of the queue is not what waits.  While a hook `aboutToBeDequeued` runs, the job that is
being dequeued is still in the list, and it is taken out of it by the position that was looked up
before.  The pool has given the job back as soon as it was found, so its waiting jobs are those of
the list whose place is the queue.  That leaves two things to check.  A job that is enqueued
meanwhile gets the same position among the waiting jobs as it gets in the list, since the list is
sorted (`Library.filter_insertFromBack`).  And the list is empty when nothing waits wherever that
is asked, since a worker that reports back has found the weaver mutex free.
-/

namespace ThreadWeaver.Collection

open Library (Pool PoolEvent)

variable {J P T σ : Type*}

/-- What the event is for a pool. -/
def Event.pooled? : Event J T → Option (PoolEvent J (Thread T))
  | .enqueued job => some (.arrived job)
  | .dequeued job => some (.takenBack job)
  | .assigned thread job => some (.handedOut thread job)
  | .finished => some .ranDry
  | .started _ | .ended _ _ | .cleanedUp _ | .finishReturned _ => none

/-- The job waits in the queue. -/
def Place.isQueued : Place T → Bool
  | queued => true
  | _ => false

theorem Place.isQueued_iff {place : Place T} : place.isQueued = true ↔ place = .queued := by
  cases place <;> simp [Place.isQueued]

/-- The jobs that wait, the active workers, and what has happened to the queue. -/
def Data.pool (d : Data J P T σ) : Pool J (Thread T) where
  waiting := d.assignments.filter fun job => (d.place job).isQueued
  active := d.active.toNat
  history := d.log.filterMap Event.pooled?

/-- What a pool does not see. -/
theorem Data.pool_eq {d d' : Data J P T σ} {more : List (Event J T)}
    (hassignments : d'.assignments = d.assignments) (hactive : d'.active = d.active)
    (hplace : ∀ job, (d'.place job).isQueued = (d.place job).isQueued)
    (hlog : d'.log = d.log ++ more) (hmore : ∀ event ∈ more, event.pooled? = none) :
    d'.pool = d.pool := by
  have hhistory : d'.log.filterMap Event.pooled? = d.log.filterMap Event.pooled? := by
    rw [hlog, List.filterMap_append, List.filterMap_eq_nil_iff.mpr hmore, List.append_nil]
  unfold Data.pool
  simp only [hassignments, hactive, hplace, hhistory]

theorem filter_leave [DecidableEq J] {jobs : List J} {job : J} {p p' : J → Bool}
    (hnodup : jobs.Nodup) (hmem : job ∈ jobs) (hbefore : p job = true) (hafter : p' job = false)
    (hothers : ∀ other, other ≠ job → p' other = p other) :
    ∃ front back, jobs.filter p = front ++ job :: back ∧ jobs.filter p' = front ++ back ∧
      (jobs.erase job).filter p' = front ++ back := by
  obtain ⟨front, back, -, rfl, herase⟩ := List.exists_erase_eq hmem
  rw [List.nodup_middle, List.nodup_cons, List.mem_append, not_or] at hnodup
  have hkeep : ∀ part : List J, job ∉ part → part.filter p' = part.filter p := fun part hnot =>
    List.filter_congr fun other hother => hothers other fun heq => hnot (heq ▸ hother)
  refine ⟨front.filter p, back.filter p, ?_, ?_, ?_⟩
  · rw [List.filter_append, List.filter_cons_of_pos hbefore]
  · rw [List.filter_append, List.filter_cons_of_neg (by simp [hafter]), hkeep front hnodup.1.1,
      hkeep back hnodup.1.2]
  · rw [herase, List.filter_append, hkeep front hnodup.1.1, hkeep back hnodup.1.2]

/-- The workers alone look for jobs, their number is right, and the list is sorted. -/
structure State.Pooled (F : Forest J P σ) (s : State J P T σ) : Prop where
  searches : ∀ caller, ∀ op ∈ s.stack (.caller caller), op.looksForJob = false
  counts : s.Counts
  sorted : s.data.assignments.Pairwise fun first second => F.priority second ≤ F.priority first

section Exec

variable [DecidableEq J] [DecidableEq P] {F : Forest J P σ} {s : State J P T σ}
  {thread : Thread T} {op : Op J} {rest : List (Op J)}

/-- The operation leaves the list, the active count and the signals alone. -/
def Op.isAside : Op J → Bool
  | applyForWork true | takeFirst (_ :: _) | enqueueJob _ | dequeueSelf _ | dequeueElement _ _ _
  | takeAt _ => false
  | _ => true

theorem exec_assignments_of_isAside (F : Forest J P σ) (thread : Thread T)
    (haside : op.isAside = true) (d : Data J P T σ) :
    (exec F thread op d).1.assignments = d.assignments ∧
      (exec F thread op d).1.active = d.active := by
  cases op with
  | applyForWork wasBusy =>
      cases wasBusy with
      | false => exact ⟨rfl, rfl⟩
      | true => cases haside
  | takeFirst candidates =>
      cases candidates with
      | nil => exact ⟨rfl, rfl⟩
      | cons job candidates => cases haside
  | enqueueJob _ | dequeueSelf _ | dequeueElement _ _ _ | takeAt _ => cases haside
  | elementFinished _ _ | processCompletedElement _ _ =>
      simp only [exec]
      split
      · split <;> exact ⟨rfl, rfl⟩
      · exact ⟨rfl, rfl⟩
  | finish | execute _ | run _ | defaultEnd _ | countDown _ _ | checkLast _
  | aboutToBeDequeued _ =>
      simp only [exec]
      split <;> exact ⟨rfl, rfl⟩
  | _ => exact ⟨rfl, rfl⟩

/-- A job is put into the list, or it is taken out, or the list stays as it is. -/
theorem exec_assignments_cases (F : Forest J P σ) (thread : Thread T) (op : Op J)
    (d : Data J P T σ) :
    (exec F thread op d).1.assignments = d.assignments ∨
      (∃ job, (exec F thread op d).1.assignments = d.assignments.erase job) ∨
      ∃ job, (exec F thread op d).1.assignments =
        Library.insertFromBack F.priority job d.assignments := by
  by_cases haside : op.isAside = true
  · exact .inl (exec_assignments_of_isAside F thread haside d).1
  cases op with
  | applyForWork wasBusy => cases wasBusy <;> exact .inl rfl
  | takeFirst candidates =>
      cases candidates with
      | nil => exact .inl rfl
      | cons job candidates =>
          simp only [exec]
          split
          · exact .inr (.inl ⟨job, rfl⟩)
          · exact .inl rfl
  | enqueueJob job => exact .inr (.inr ⟨job, rfl⟩)
  | takeAt job => exact .inr (.inl ⟨job, rfl⟩)
  | dequeueSelf _ =>
      refine .inl ?_
      simp only [exec]
      split <;> rfl
  | dequeueElement _ _ _ =>
      refine .inl ?_
      simp only [exec]
      split
      · split <;> rfl
      · rfl
  | _ => exact absurd rfl haside

/-- **Most of what happens to nested jobs is none of the pool's.** -/
theorem pool_of_isAside (hs : s.Sound F) (hstack : s.stack thread = op :: rest)
    (hfree : ∀ mutex, wants F op = some mutex → s.data.holder mutex = none)
    (haside : op.isAside = true) : (exec F thread op s.data).1.pool = s.data.pool := by
  obtain ⟨hassignments, hactive⟩ := exec_assignments_of_isAside F thread haside s.data
  refine Data.pool_eq hassignments hactive (fun job => ?_) (exec_log F thread op s.data) ?_
  · rcases hs.exec_place hstack hfree job with hsame | hmoves
    · rw [hsame]
    · generalize s.data.place job = before at hmoves ⊢
      generalize (exec F thread op s.data).1.place job = after at hmoves ⊢
      cases hmoves with
      | enqueued | assigned | leaving _ | taken _ => cases haside
      | _ => rfl
  · intro event hevent
    cases op with
    | applyForWork wasBusy =>
        cases wasBusy with
        | false => cases hevent
        | true => cases haside
    | takeFirst candidates =>
        cases candidates with
        | nil => cases hevent
        | cons job candidates => cases haside
    | enqueueJob _ | dequeueSelf _ | dequeueElement _ _ _ | takeAt _ => cases haside
    | finish | countDown _ _ | checkLast _ =>
        simp only [Op.events] at hevent
        split at hevent
        · rw [List.mem_singleton.mp hevent]
          rfl
        · cases hevent
    | execute _ | defaultEnd _ =>
        rw [List.mem_singleton.mp hevent]
        rfl
    | _ => cases hevent

omit [DecidableEq P] in
theorem waiting_of_free (hs : s.Sound F) (hfree : s.data.holder .weaver = none) :
    s.data.pool.waiting = s.data.assignments :=
  List.filter_eq_self.mpr fun _ hmem => Place.isQueued_iff.mpr (hs.queued_of_free hfree hmem)

omit [DecidableEq P] in
theorem leave_waiting (hs : s.Sound F) {job : J} (hqueued : s.data.place job = .queued)
    (place : Place T) (hplace : place.isQueued = false) :
    ∃ front back, s.data.pool.waiting = front ++ job :: back ∧
      (s.data.assignments.filter fun other =>
        (Function.update s.data.place job place other).isQueued) = front ++ back ∧
      ((s.data.assignments.erase job).filter fun other =>
        (Function.update s.data.place job place other).isQueued) = front ++ back := by
  apply filter_leave hs.nodup (hs.queued job hqueued)
  · rw [hqueued]
    rfl
  · rw [Function.update_self]
    exact hplace
  · intro other hne
    rw [Function.update_of_ne hne]

omit [DecidableEq J] [DecidableEq P] in
theorem State.Pooled.active_pos (hp : s.Pooled F) (hop : .applyForWork true ∈ s.stack thread) :
    0 < s.data.active := by
  cases thread with
  | caller caller => cases hp.searches caller _ hop
  | worker number =>
      obtain ⟨busy, hbusy, hactive⟩ := hp.counts
      have hpositive := Finset.card_pos.mpr ⟨number, (hbusy number).mpr hop⟩
      omega

/-- A worker reports back. -/
theorem retire_applyForWork (hs : s.Sound F) (hp : s.Pooled F)
    (hstack : s.stack thread = .applyForWork true :: rest) (hfree : s.data.holder .weaver = none) :
    Pool.Move F.priority s.data.pool (exec F thread (.applyForWork true) s.data).1.pool := by
  have hpositive := hp.active_pos (hstack ▸ List.mem_cons_self)
  have hcount : s.data.pool.active = (s.data.active - 1).toNat + 1 := by
    change s.data.active.toNat = _
    omega
  have hdry : s.data.pool.waiting = [] ∧ (s.data.active - 1).toNat = 0 ↔
      s.data.assignments.isEmpty ∧ s.data.active - 1 = 0 := by
    rw [waiting_of_free hs hfree, List.isEmpty_iff]
    exact and_congr_right fun _ => by omega
  have hretire : Pool.Move F.priority s.data.pool _ := .retire hcount
  rw [if_congr hdry rfl rfl] at hretire
  have hlog := exec_log F thread (.applyForWork true) s.data
  have hevents : (Op.events F thread s.data (.applyForWork true)).filterMap Event.pooled? =
      if s.data.assignments.isEmpty ∧ s.data.active - 1 = 0 then [.ranDry] else [] := by
    simp only [Op.events]
    rw [apply_ite (List.filterMap _)]
    rfl
  unfold Data.pool at hretire ⊢
  rw [hlog, List.filterMap_append, hevents]
  exact hretire

/-- A job that waits is handed to a worker. -/
theorem handOut_takeFirst (hs : s.Sound F) (hp : s.Pooled F) {job : J} {candidates : List J}
    (hqueued : s.data.place job = .queued) (hcan : s.data.canBeExecuted F job = true) :
    Pool.Move F.priority s.data.pool
      (exec F thread (.takeFirst (job :: candidates)) s.data).1.pool := by
  obtain ⟨busy, -, hactive⟩ := hp.counts
  have hcount : (s.data.active + 1).toNat = s.data.pool.active + 1 := by
    change _ = s.data.active.toNat + 1
    omega
  obtain ⟨front, back, hwaiting, -, hleft⟩ :=
    leave_waiting hs hqueued (.held .assigned thread) rfl
  have hmove : Pool.Move F.priority s.data.pool _ := .handOut thread hwaiting
  rw [← hleft, ← hcount] at hmove
  have hlog := exec_log F thread (.takeFirst (job :: candidates)) s.data
  simp only [Op.events, if_pos hcan] at hlog
  unfold Data.pool at hmove ⊢
  rw [hlog, List.filterMap_append]
  simp only [exec, if_pos hcan]
  exact hmove

/-- A job that was in the hands of the thread waits. -/
theorem arrive_enqueueJob (hs : s.Sound F) (hp : s.Pooled F) {job : J}
    (hstack : s.stack thread = .enqueueJob job :: rest) :
    Pool.Move F.priority s.data.pool (exec F thread (.enqueueJob job) s.data).1.pool := by
  have hplace : s.data.place job = .held .pending thread :=
    hs.place_eq (hstack ▸ List.mem_cons_self) List.mem_cons_self
  have hnot : job ∉ s.data.assignments := by
    intro hmem
    rcases hs.listed job hmem with hqueued | ⟨other, htake⟩
    · rw [hplace] at hqueued
      cases hqueued
    · rcases (hs.of_takeAt htake).2 with hheld | hheld
      · rw [hplace] at hheld
        cases hheld
      · rw [hplace] at hheld
        cases hheld
  have hwaiting : (Library.insertFromBack F.priority job s.data.assignments).filter
        (fun other => (Function.update s.data.place job .queued other).isQueued) =
      Library.insertFromBack F.priority job s.data.pool.waiting := by
    rw [Library.filter_insertFromBack (by rw [Function.update_self]; rfl) hp.sorted]
    refine congrArg _ (List.filter_congr fun other hother => ?_)
    have hne : other ≠ job := fun heq => hnot (heq ▸ hother)
    rw [Function.update_of_ne hne]
  have hmove : Pool.Move F.priority s.data.pool _ := .arrive job
  rw [← hwaiting] at hmove
  unfold Data.pool at hmove ⊢
  rw [exec_log, List.filterMap_append]
  exact hmove

omit [DecidableEq P] in
theorem takeBack_take (hs : s.Sound F) {job : J} {stage : Stage}
    (hqueued : s.data.place job = .queued) :
    Pool.Move F.priority s.data.pool (s.data.take stage thread job).pool := by
  obtain ⟨front, back, hwaiting, hleft, -⟩ :=
    leave_waiting hs hqueued (.held stage thread) rfl
  have hmove : Pool.Move F.priority s.data.pool _ := .takeBack hwaiting
  rw [← hleft] at hmove
  have hhistory : (s.data.take stage thread job).log.filterMap Event.pooled? =
      s.data.log.filterMap Event.pooled? ++ [.takenBack job] :=
    List.filterMap_append
  unfold Data.pool at hmove ⊢
  rw [hhistory]
  exact hmove

/-- The list forgets a job that has been taken back. -/
theorem pool_takeAt (hs : s.Sound F) {job : J} (hstack : s.stack thread = .takeAt job :: rest) :
    (exec F thread (.takeAt job) s.data).1.pool = s.data.pool := by
  have hnot : (s.data.place job).isQueued = false := by
    rcases (hs.of_takeAt (hstack ▸ List.mem_cons_self)).2 with hheld | hheld
    · rw [hheld]
      rfl
    · rw [hheld]
      rfl
  have hwaiting : (s.data.assignments.erase job).filter (fun other => (s.data.place other).isQueued) =
      s.data.assignments.filter fun other => (s.data.place other).isQueued := by
    rw [hs.nodup.erase_eq_filter, List.filter_filter]
    refine List.filter_congr fun other _ => ?_
    by_cases heq : other = job
    · rw [heq, hnot, Bool.false_and]
    · simp [heq]
  unfold Data.pool
  exact congrArg (Pool.mk · _ _) hwaiting

/-- **What a thread does is a move of the pool, or none.** -/
theorem pooled_exec (hs : s.Sound F) (hp : s.Pooled F) (hstack : s.stack thread = op :: rest)
    (hfree : ∀ mutex, wants F op = some mutex → s.data.holder mutex = none) :
    (exec F thread op s.data).1.pool = s.data.pool ∨
      Pool.Move F.priority s.data.pool (exec F thread op s.data).1.pool := by
  by_cases haside : op.isAside = true
  · exact .inl (pool_of_isAside hs hstack hfree haside)
  cases op with
  | applyForWork wasBusy =>
      cases wasBusy with
      | false => exact absurd rfl haside
      | true => exact .inr (retire_applyForWork hs hp hstack (hfree _ rfl))
  | takeFirst candidates =>
      cases candidates with
      | nil => exact absurd rfl haside
      | cons job candidates =>
          by_cases hcan : s.data.canBeExecuted F job = true
          · exact .inr (handOut_takeFirst hs hp (hs.queued_of_candidate hstack) hcan)
          · refine .inl ?_
            simp only [exec, if_neg hcan]
            rfl
  | enqueueJob job => exact .inr (arrive_enqueueJob hs hp hstack)
  | dequeueSelf collection =>
      by_cases hmem : collection ∈ s.data.assignments
      · refine .inr ?_
        simp only [exec, if_pos hmem]
        exact takeBack_take hs (hs.queued_of_free (hfree _ rfl) hmem)
      · refine .inl ?_
        simp only [exec, if_neg hmem]
  | dequeueElement collection element locked =>
      by_cases hmem : element ∈ s.data.assignments
      · cases locked with
        | true =>
            -- the elements of a collection that is being dequeued have not been enqueued
            exact absurd hmem (hs.notMem_of_hook (hstack ▸ List.mem_cons_self) rfl)
        | false =>
            refine .inr ?_
            simp only [exec, if_pos hmem]
            exact takeBack_take hs (hs.queued_of_free (hfree _ rfl) hmem)
      · refine .inl ?_
        simp only [exec, if_neg hmem]
  | takeAt job => exact .inl (pool_takeAt hs hstack)
  | _ => exact absurd rfl haside

end Exec

section Runs

variable [DecidableEq J] [DecidableEq P] [DecidableEq T] {F : Forest J P σ}
  {s next : State J P T σ} {thread : Thread T}

theorem State.Pooled.runThread (hp : s.Pooled F) (hs : s.Sound F)
    (h : s.runThread F thread = some next) : next.Pooled F := by
  have halone : ∀ op rest, s.stack thread = op :: rest → op.looksForJob = true →
      rest = [] ∧ ∃ number, thread = .worker number := by
    intro op rest hstack hsearch
    refine ⟨hs.rest_of_search hstack hsearch, ?_⟩
    cases thread with
    | worker number => exact ⟨number, rfl⟩
    | caller caller =>
        rw [hp.searches caller op (hstack ▸ List.mem_cons_self)] at hsearch
        cases hsearch
  have hcounts := hp.counts.runThread halone h
  obtain ⟨op, rest, hstack, -, rfl⟩ := State.runThread_eq_some h
  refine ⟨fun caller later hlater => ?_, hcounts, ?_⟩
  · rcases State.mem_exec hstack hlater with ⟨rfl, hcalls⟩ | ⟨hold, -⟩
    · have hop := hp.searches caller op (hstack ▸ List.mem_cons_self)
      cases hcalls with
      | takeFirst | takeNext | wait | applyForWork _ | execute _ => cases hop
      | _ => rfl
    · exact hp.searches caller later hold
  · rcases exec_assignments_cases F thread op s.data with hsame | ⟨job, hless⟩ | ⟨job, hmore⟩
    · dsimp only
      rw [hsame]
      exact hp.sorted
    · dsimp only
      rw [hless]
      exact hp.sorted.sublist List.erase_sublist
    · dsimp only
      rw [hmore]
      apply Library.pairwise_insertFromBack (fun _ _ h => h) hp.sorted
      · exact fun _ _ hle => hle
      · exact fun _ _ hlt => hlt.le

theorem State.Pooled.step (hp : s.Pooled F) (hs : s.Sound F) {act : Act J T}
    (h : step F s act = some next) : next.Pooled F := by
  refine step_rule hp (fun _ _ => hp.runThread hs) ?_ ?_ h
  · exact fun _ _ _ _ => ⟨hp.searches, hp.counts, hp.sorted⟩
  · intro before caller hbefore hbegin
    obtain ⟨-, rfl⟩ := State.beginCall_eq_some hbegin
    refine ⟨fun other op hop => ?_, ?_, hbefore.sorted⟩
    · dsimp only at hop
      by_cases heq : other = caller
      · rw [heq, Function.update_self] at hop
        cases act with
        | run thread => cases hop
        | enqueue _ _ | finish _ | stop _ _ | requestAbort _ _ =>
            obtain rfl := List.mem_singleton.mp hop
            rfl
      · rw [Function.update_of_ne (by simpa using heq)] at hop
        exact hbefore.searches other op hop
    · obtain ⟨busy, hbusy, hactive⟩ := hbefore.counts
      refine ⟨busy, fun number => ?_, hactive⟩
      rw [hbusy]
      dsimp only
      rw [Function.update_of_ne (by simp)]

omit [DecidableEq J] [DecidableEq P] [DecidableEq T] in
theorem pooled_init (start : Weaver.Start J P σ) : (init start : State J P T σ).Pooled F where
  searches caller op hop := by cases hop
  counts := ⟨∅, fun number => by simp [init], rfl⟩
  sorted := List.Pairwise.nil

/-- **Every step of the threads is a move of the pool, or none.** -/
theorem State.Pooled.pool_step (hp : s.Pooled F) (hs : s.Sound F) {act : Act J T}
    (h : Collection.step F s act = some next) :
    next.data.pool = s.data.pool ∨ Pool.Move F.priority s.data.pool next.data.pool := by
  refine step_rule (I := fun after => after.data.pool = s.data.pool ∨
    Pool.Move F.priority s.data.pool after.data.pool) (.inl rfl) ?_ ?_ ?_ h
  · intro thread _ hrun
    obtain ⟨op, rest, hstack, hfree, rfl⟩ := State.runThread_eq_some hrun
    exact pooled_exec hs hp hstack hfree
  · intro caller jobs _ hjobs
    have hnone : ∀ event ∈ ([] : List (Event J T)), event.pooled? = none := by simp
    refine .inl (Data.pool_eq rfl rfl (fun job => ?_) (List.append_nil _).symm hnone)
    by_cases hmem : job ∈ jobs
    · simp [State.takeUp, hmem, (hjobs job hmem).2, Place.isQueued]
    · simp [State.takeUp, hmem]
  · intro before caller hbefore hbegin
    obtain ⟨-, rfl⟩ := State.beginCall_eq_some hbegin
    exact hbefore

theorem runs_pooled {ok : State J P T σ → Act J T → Prop} {start : Weaver.Start J P σ}
    (run : Runs F ok start s) : s.Pooled F := by
  induction run with
  | refl => exact pooled_init start
  | tail run _ hstep ih => exact ih.step (runs_sound run) hstep

/-- **Nested work is work of a pool.**  In every run, also where `stop` and `requestAbort` are
called, every step of the threads is a move of the pool or none.  So whatever the nesting, the
queue hands out and takes back what waits in the order of priorities and arrivals, a job was
enqueued as often as it waits, was handed to a worker or was dequeued, and `finished` is emitted
when the last active worker comes back and nothing waits, and at no other time.  The active
count of the weaver is that of the pool. -/
theorem nested_refines_pool {ok : State J P T σ → Act J T → Prop} {start : Weaver.Start J P σ}
    (run : Runs F ok start s) :
    (s.data.pool.active : ℤ) = s.data.active ∧ Pool.Reachable F.priority s.data.pool ∧
      s.data.pool.InOrder F.priority ∧ s.data.pool.Balanced ∧ s.data.pool.Signals ∧
      ∀ act next, step F s act = some next →
        next.data.pool = s.data.pool ∨ Pool.Move F.priority s.data.pool next.data.pool := by
  have hp := runs_pooled run
  have hreachable : Pool.Reachable F.priority s.data.pool := by
    clear hp
    induction run with
    | refl => exact .refl
    | tail run _ hstep ih =>
        rcases (runs_pooled run).pool_step (runs_sound run) hstep with hsame | hmove
        · rw [hsame]
          exact ih
        · exact ih.tail hmove
  refine ⟨?_, hreachable, hreachable.inOrder, hreachable.balanced, hreachable.signals,
    fun act next hstep => hp.pool_step (runs_sound run) hstep⟩
  obtain ⟨busy, -, hactive⟩ := hp.counts
  unfold Data.pool
  dsimp only
  omega

end Runs

/-- The element is taken out of the queue by a stop; then the worker comes back, and the pool runs
dry. -/
theorem nested_refines_pool_stopped : ∃ s : State (Fin 2) Empty Unit Unit,
    s.data.pool.history =
        [.arrived 0, .handedOut (.worker 0) 0, .arrived 1, .takenBack 1, .ranDry] ∧
      Pool.Reachable pair.priority s.data.pool ∧ s.data.pool.Signals := by
  obtain ⟨s, run, hhistory, -⟩ :=
    exists_runs pair (fun _ _ => True) (.plain ())
      (fun s : State (Fin 2) Empty Unit Unit => s.data.pool.history =
        [.arrived 0, .handedOut (.worker 0) 0, .arrived 1, .takenBack 1, .ranDry])
      (List.flatten [[.enqueue () [0]], List.replicate 3 (.run (.caller ())),
        List.replicate 13 (.run (.worker 0)), [.stop () 0],
        List.replicate 11 (.run (.caller ())), [.run (.worker 0)]]) (by decide +kernel)
  have hpool := nested_refines_pool run
  exact ⟨s, hhistory, hpool.2.1, hpool.2.2.2.2.1⟩

end ThreadWeaver.Collection
