import ThreadWeaver.Collection.Inversion
import ThreadWeaver.Collection.RequestAbort

/-!
# Sound runs with calls that dequeue

`dequeue` of a job and `dequeue()` take jobs out of the queue from outside.  The first is the
dequeueing of a collection by its own `stop`, but for any job.  The second runs the hooks of all
jobs, which stay in the list, and clears the list at the end.

Under its hook a job is still queued as far as its place says, and nothing on the stack says that
it will be taken out.  `Seen` looks at the state as if it did: the jobs whose hooks have been
called are leaving, and under the hook lie the operations that take them out.  Places are history,
which no operation reads (`exec_setsPlaces`), so a step of the threads is a step of what is seen,
and what is seen is sound (`queueRuns_seen`).
-/

namespace ThreadWeaver.Collection

open Library (owed Custody Stacked)

variable {J P T σ : Type*}

section Exec

variable [DecidableEq J] [DecidableEq P] {F : Forest J P σ}

/-- The operation does the same whatever the places are, and sets each of them to a fixed place
or leaves it. -/
structure SetsPlaces (F : Forest J P σ) (thread : Thread T) (op : Op J) (d : Data J P T σ)
    (placed : (J → Place T) → J → Place T) : Prop where
  exec_eq : ∀ place, exec F thread op { d with place := place } =
    ({ (exec F thread op d).1 with place := placed place }, (exec F thread op d).2)
  fixed : ∀ job, (∀ place, placed place job = place job) ∨ ∃ now, ∀ place, placed place job = now

/-- **No operation reads the places.** -/
theorem exec_setsPlaces (thread : Thread T) (op : Op J) (d : Data J P T σ) :
    ∃ placed, SetsPlaces F thread op d placed := by
  -- an operation that moves no job
  have hkeep : (∀ place, exec F thread op { d with place := place } =
        ({ (exec F thread op d).1 with place := place }, (exec F thread op d).2)) →
      ∃ placed, SetsPlaces F thread op d placed :=
    fun h => ⟨fun place => place, h, fun job => .inl fun _ => rfl⟩
  -- an operation that moves one job
  have hmove : ∀ moved now, (∀ place, exec F thread op { d with place := place } =
        ({ (exec F thread op d).1 with place := Function.update place moved now },
          (exec F thread op d).2)) →
      ∃ placed, SetsPlaces F thread op d placed := by
    intro moved now h
    refine ⟨fun place => Function.update place moved now, h, fun job => ?_⟩
    by_cases hjob : job = moved
    · subst hjob
      exact .inr ⟨now, fun place => Function.update_self ..⟩
    · exact .inl fun place => Function.update_of_ne hjob ..
  cases op with
  | takeFirst candidates =>
      cases candidates with
      | nil => exact hkeep fun _ => rfl
      | cons job candidates =>
          by_cases hcan : d.canBeExecuted F job = true
          · refine hmove job (.held .assigned thread) fun place => ?_
            have hcan' : Data.canBeExecuted F job { d with place := place } = true := hcan
            simp only [exec, if_pos hcan, if_pos hcan']
            rfl
          · refine hkeep fun place => ?_
            have hcan' : ¬ Data.canBeExecuted F job { d with place := place } = true := hcan
            simp only [exec, if_neg hcan, if_neg hcan']
            rfl
  | enqueueJob job => exact hmove job .queued fun _ => rfl
  | execute job =>
      refine hmove job (.held .executing thread) fun place => ?_
      simp only [exec]
      split <;> rfl
  | run job =>
      by_cases hkind : F.kind job = .plain
      · refine hmove job (.held .ending thread) fun place => ?_
        simp only [exec, if_pos hkind]
        rfl
      · refine hkeep fun place => ?_
        simp only [exec, if_neg hkind]
        rfl
  | defaultEnd job =>
      cases hparent : F.parent job with
      | none =>
          refine hmove job .reported fun place => ?_
          simp only [exec, hparent]
          rfl
      | some collection =>
          refine hmove job (.held .reporting thread) fun place => ?_
          simp only [exec, hparent]
          rfl
  | elementFinished collection job =>
      by_cases hself : d.selfIsExecuting collection = true
      · by_cases habort : d.shouldAbort collection = true
        · refine hmove job (.held .closing thread) fun place => ?_
          simp [exec, Data.lock, Data.moveTo, hself, habort]
        · -- the elements come into the hands of the thread
          refine ⟨fun place other => if other ∈ F.elements collection then .held .pending thread
            else Function.update place job (.held .closing thread) other, fun place => ?_,
            fun other => ?_⟩
          · simp [exec, Data.lock, Data.moveTo, Data.enqueueElements, hself, habort]
          · by_cases hother : other ∈ F.elements collection
            · exact .inr ⟨_, fun place => if_pos hother⟩
            · by_cases hjob : other = job
              · subst hjob
                exact .inr ⟨.held .closing thread, fun place => by simp [hother]⟩
              · exact .inl fun place => by simp [hother, hjob]
      · refine hkeep fun place => ?_
        simp [exec, Data.lock, hself]
  | countDown collection job =>
      by_cases hlast : d.jobCounter collection - 1 = 0
      · -- the job is counted first
        refine ⟨fun place => Function.update (Function.update place job
          (if job = collection then .waiting else .reported)) collection (.held .ending thread),
          fun place => ?_, fun other => ?_⟩
        · simp [exec, Data.count, Data.decJobCounter, Data.moveTo, hlast, Data.unlock,
            Data.finalCleanup, Data.finalStatus, Data.freeQueuePolicyResources,
            Data.recordCalls, Data.record, Data.setStatus]
        · by_cases hcollection : other = collection
          · subst hcollection
            exact .inr ⟨.held .ending thread, fun place => Function.update_self ..⟩
          · by_cases hjob : other = job
            · subst hjob
              exact .inr ⟨_, fun place => (Function.update_of_ne hcollection ..).trans
                (Function.update_self ..)⟩
            · exact .inl fun place => (Function.update_of_ne hcollection ..).trans
                (Function.update_of_ne hjob ..)
      · refine hmove job (if job = collection then .waiting else .reported) fun place => ?_
        simp [exec, Data.count, Data.decJobCounter, Data.moveTo, hlast, Data.unlock]
  | dequeueSelf collection =>
      by_cases hmem : collection ∈ d.assignments
      · refine hmove collection (.held .leaving thread) fun place => ?_
        simp only [exec, if_pos hmem]
        rfl
      · refine hkeep fun place => ?_
        simp only [exec, if_neg hmem]
  | leave collection =>
      exact hmove collection (if F.parent collection = none then .fresh else .lost) fun _ => rfl
  | dequeueElement collection element locked =>
      by_cases hmem : element ∈ d.assignments
      · refine hmove element (.held .taken thread) fun place => ?_
        simp only [exec, if_pos hmem]
        split <;> rfl
      · refine hkeep fun place => ?_
        simp only [exec, if_neg hmem]
  | discount collection element => exact hmove element .discounted fun _ => rfl
  | applyForWork wasBusy =>
      refine hkeep fun place => ?_
      cases wasBusy <;> rfl
  | finish =>
      refine hkeep fun place => ?_
      by_cases hidle : d.isIdleP = true
      · have hidle' : Data.isIdleP { d with place := place } = true := hidle
        simp only [exec, if_pos hidle, if_pos hidle']
        rfl
      · have hidle' : ¬ Data.isIdleP { d with place := place } = true := hidle
        simp only [exec, if_neg hidle, if_neg hidle']
  | processCompletedElement collection job =>
      refine hkeep fun place => ?_
      have hstatus : Data.updatedStatus job { d with place := place } = d.updatedStatus job := rfl
      simp only [exec, hstatus]
      split
      · split <;> rfl
      · rfl
  | checkLast collection =>
      refine hkeep fun place => ?_
      simp only [exec]
      split <;> rfl
  | aboutToBeDequeued job =>
      refine hkeep fun place => ?_
      simp only [exec]
      split <;> rfl
  | _ => exact hkeep fun _ => rfl

end Exec

/-! ## Sound states from which jobs are dequeued -/

namespace State.Sound

variable [DecidableEq J] {F : Forest J P σ} {s : State J P T σ} {thread : Thread T}
  {new : List (Op J)} {job : J}

theorem of_log (hs : s.Sound F) (log : List (Event J T)) :
    State.Sound F { s with data := { s.data with log := log } } where
  nodup := hs.nodup
  queued := hs.queued
  listed := hs.listed
  executing := hs.executing
  layout := hs.layout
  locks := hs.locks
  jobs := hs.jobs
  books := ⟨hs.books.late, hs.books.fresh, hs.books.counter, hs.books.unopened, hs.books.isOver⟩
  scanning := hs.scanning

variable [DecidableEq T]

/-- A thread has something else to do first, which holds nothing. -/
theorem push (hs : s.Sound F) {op : Op J} (hfits : Fits F op (s.stack thread))
    (hlocks : op.locks = []) (hjobs : op.jobs = [])
    (hscan : ∀ candidates, .takeFirst candidates ∉ op :: s.stack thread) :
    State.Sound F { s with
      stack := Function.update s.stack thread (op :: s.stack thread) } := by
  have hmem : ∀ (later : Op J) other, later ∈ s.stack other →
      later ∈ Function.update s.stack thread (op :: s.stack thread) other := by
    intro later other hlater
    by_cases hother : other = thread
    · subst hother
      rw [Function.update_self]
      exact List.mem_cons_of_mem _ hlater
    · rwa [Function.update_of_ne hother]
  refine ⟨hs.keep rfl rfl rfl fun job => Exists.imp fun other => hmem _ other, fun other => ?_, ?_,
    ?_, hs.books, ?_⟩
  · by_cases hother : other = thread
    · subst hother
      dsimp only
      rw [Function.update_self]
      exact ⟨hfits, hs.layout other⟩
    · dsimp only
      rw [Function.update_of_ne hother]
      exact hs.layout other
  · have hnothing : owed Op.locks [op] = owed Op.locks [] := by simp [owed, hlocks]
    exact hs.locks.keep (List.nil_append _).symm hnothing
  · have hnothing : owed Op.jobs [op] = owed Op.jobs [] := by simp [owed, hjobs]
    exact hs.jobs.keep (List.nil_append _).symm hnothing
  · intro other candidates hop
    dsimp only at hop ⊢
    by_cases hother : other = thread
    · rw [hother, Function.update_self] at hop
      exact absurd hop (hscan candidates)
    · rw [Function.update_of_ne hother] at hop ⊢
      exact hs.scanning other candidates hop

/-- The hook of a job in the queue is about to be called by a thread that takes the job out
later. -/
theorem hook (hs : s.Sound F) (hqueued : s.data.place job = .queued) (hlayout : Layout F new)
    (hlocks : owed Op.locks new = owed Op.locks (s.stack thread))
    (hjobs : (owed Op.jobs new).Perm ((job, .leaving) :: owed Op.jobs (s.stack thread)))
    (htakes : ∀ other, .takeAt other ∈ s.stack thread → .takeAt other ∈ new)
    (htakeAt : .takeAt job ∈ new) (hscan : ∀ candidates, .takeFirst candidates ∉ new) :
    State.Sound F ⟨s.data.moveTo job (.held .leaving thread),
      Function.update s.stack thread new⟩ := by
  have hplace : (s.data.moveTo job (.held .leaving thread)).place =
      Function.update s.data.place job (.held .leaving thread) := rfl
  have hstack : s.stack thread = s.stack thread ++ [] := (List.append_nil _).symm
  have hnew : new = new ++ [] := (List.append_nil _).symm
  have hfree : job ∉ (owed Op.jobs (s.stack thread)).map Prod.fst := by
    intro hmem
    obtain ⟨⟨held, stage⟩, hin, rfl⟩ := List.mem_map.mp hmem
    have howner := (hs.jobs.mem_iff _ _ _).mp hin
    simp [Data.jobOwner, hqueued, Place.owner] at howner
  have hplaced : (s.data.moveTo job (.held .leaving thread)).Placed F
      (Function.update s.stack thread new) := by
    refine hs.take thread job .leaving rfl rfl hplace hqueued (by simp) ⟨thread, ?_⟩ ?_
    · rwa [Function.update_self]
    · rintro other ⟨holder, htaken⟩
      refine ⟨holder, ?_⟩
      by_cases hholder : holder = thread
      · subst hholder
        simpa using htakes other htaken
      · simpa [Function.update_of_ne hholder] using htaken
  refine ⟨hplaced, fun other => ?_, ?_, ?_, ?_, fun other candidates hop => ?_⟩
  · dsimp only
    by_cases hother : other = thread
    · subst hother
      rw [Function.update_self]
      exact hlayout
    · rw [Function.update_of_ne hother]
      exact hs.layout other
  · dsimp only
    rw [hnew]
    exact hs.locks.keep hstack hlocks
  · dsimp only
    rw [Data.jobOwner_of_place hplace, hnew]
    refine hs.jobs.exchange hstack ?_ ?_ ?_ ?_ ?_
    · rw [(hjobs.map Prod.fst).nodup_iff, List.map_cons, List.nodup_cons]
      exact ⟨hfree, hs.jobs.nodup thread⟩
    · intro other stage hin
      rcases List.mem_cons.mp (hjobs.mem_iff.mp hin) with heq | hin
      · cases heq
        exact Function.update_self ..
      · have hne : other ≠ job := by
          rintro rfl
          exact hfree (List.mem_map_of_mem (f := Prod.fst) hin)
        rw [Function.update_of_ne hne]
        exact (hs.jobs.mem_iff _ _ _).mp hin
    · intro other hin
      rcases List.mem_cons.mp ((hjobs.map Prod.fst).mem_iff.mp hin) with heq | hin
      · refine .inr ?_
        simp [heq, Data.jobOwner, hqueued, Place.owner]
      · exact .inl hin
    · intro other hin hnot
      exact absurd ((hjobs.map Prod.fst).mem_iff.mpr (List.mem_cons_of_mem _ hin)) hnot
    · intro other _ hnot
      refine Function.update_of_ne ?_ _ _
      rintro rfl
      exact hnot ((hjobs.map Prod.fst).mem_iff.mpr List.mem_cons_self)
  · refine hs.books.of_passes rfl rfl fun other => ?_
    by_cases hne : other = job
    · subst hne
      refine .inr ?_
      have hnow : (s.data.moveTo other (.held .leaving thread)).books.place other =
          .held .leaving thread := Function.update_self ..
      rw [hnow, show s.data.books.place other = .queued from hqueued]
      constructor <;> simp [Place.isCounted, Place.isClosing, Place.isLate, Place.isOver]
    · exact .inl (Function.update_of_ne hne _ _)
  · dsimp only at hop ⊢
    by_cases hother : other = thread
    · rw [hother, Function.update_self] at hop
      exact absurd hop (hscan candidates)
    · rw [Function.update_of_ne hother] at hop ⊢
      exact hs.scanning other candidates hop

/-- The list is cleared by the thread that has all the jobs in it in hand. -/
theorem clear (hs : s.Sound F)
    (hholder : s.data.holder .weaver = some thread)
    (hjobs : (owed Op.jobs (s.stack thread)).map Prod.fst = s.data.assignments)
    (hleaving : ∀ job ∈ s.data.assignments, s.data.place job = .held .leaving thread)
    (hlocks : owed Op.locks (s.stack thread) = [(.weaver, ())]) :
    State.Sound F
      { data := { s.data with
          assignments := []
          place := fun job => if job ∈ s.data.assignments then
            if F.parent job = none then .fresh else .lost else s.data.place job }
        stack := Function.update s.stack thread [.unlock .weaver] } := by
  have hstack : s.stack thread = s.stack thread ++ [] := (List.append_nil _).symm
  have hnew : [Op.unlock (.weaver : Mutex J)] = [.unlock .weaver] ++ [] := rfl
  have hgone : ∀ job ∈ s.data.assignments, ∀ place : Place T,
      (if job ∈ s.data.assignments then if F.parent job = none then .fresh else .lost
        else place) = if F.parent job = none then .fresh else .lost :=
    fun job hmem place => if_pos hmem
  refine ⟨⟨List.nodup_nil, fun job hqueued => ?_, fun job hmem => absurd hmem List.not_mem_nil,
    fun collection => ?_⟩, fun other => ?_, ?_, ?_, ?_, fun other candidates hop => ?_⟩
  · exfalso
    dsimp only at hqueued
    split at hqueued
    · split at hqueued <;> cases hqueued
    · rename_i hnot
      exact hnot (hs.queued job hqueued)
  · refine (hs.executing collection).trans (and_congr_right fun _ => exists_congr fun other => ?_)
    dsimp only
    by_cases hmem : collection ∈ s.data.assignments
    · rw [hgone _ hmem, hleaving _ hmem]
      split <;> simp
    · rw [if_neg hmem]
  · dsimp only
    by_cases hother : other = thread
    · subst hother
      rw [Function.update_self]
      exact ⟨trivial, trivial⟩
    · rw [Function.update_of_ne hother]
      exact hs.layout other
  · dsimp only
    rw [hnew]
    exact hs.locks.keep hstack (by rw [hlocks]; rfl)
  · dsimp only
    rw [hnew]
    refine hs.jobs.exchange hstack (by simp [owed, Op.jobs]) (by simp [owed, Op.jobs])
      (by simp [owed, Op.jobs]) ?_ ?_
    · intro job hin _
      rw [hjobs] at hin
      dsimp only [Data.jobOwner]
      rw [hgone _ hin]
      split <;> rfl
    · intro job hnot _
      rw [hjobs] at hnot
      dsimp only [Data.jobOwner]
      rw [if_neg hnot]
  · refine hs.books.of_passes rfl rfl fun job => ?_
    dsimp only [Data.books]
    by_cases hmem : job ∈ s.data.assignments
    · refine .inr ?_
      rw [hgone _ hmem, hleaving _ hmem]
      by_cases hroot : F.parent job = none
      · rw [if_pos hroot]
        constructor <;> simp [Place.isCounted, Place.isClosing, Place.isLate, Place.isOver, hroot]
      · rw [if_neg hroot]
        constructor <;> simp [Place.isCounted, Place.isClosing, Place.isLate, Place.isOver]
    · exact .inl (if_neg hmem)
  · exfalso
    dsimp only at hop
    by_cases hother : other = thread
    · rw [hother, Function.update_self] at hop
      simp at hop
    · rw [Function.update_of_ne hother] at hop
      have hmine := hs.holder_eq ⟨_, hop, List.mem_cons_self⟩
      rw [hholder] at hmine
      cases hmine
      exact hother rfl

variable [DecidableEq P]

/-- A thread that has nothing to do takes the weaver mutex. -/
theorem lockQueue (hs : s.Sound F) {caller : T} (hidle : s.stack (.caller caller) = [])
    (hfree : s.data.holder .weaver = none) :
    State.Sound F ⟨s.data.lock .weaver (.caller caller),
      Function.update s.stack (.caller caller) [.unlock .weaver]⟩ := by
  -- as if it enqueued no jobs
  have hcalled : (s.takeUp (.caller caller) []).beginCall caller [.enqueue []] =
      some { s with stack := Function.update s.stack (.caller caller) [.enqueue []] } := by
    unfold State.beginCall
    rw [if_pos (by exact hidle)]
    simp [takeUp]
  have hsound := hs.enqueue List.nodup_nil (by simp) hcalled
  have hrun : State.runThread F (.caller caller)
      { s with stack := Function.update s.stack (.caller caller) [.enqueue []] } =
        some ⟨s.data.lock .weaver (.caller caller),
          Function.update s.stack (.caller caller) [.unlock .weaver]⟩ := by
    simp [State.runThread, wants, hfree, exec]
  exact hsound.runThread hrun

end State.Sound

/-! ## What is seen of a queue whose jobs are being dequeued -/

/-- The operations that take jobs out one by one, under the weaver mutex. -/
def takeOut (jobs : List J) : List (Op J) :=
  jobs.map .takeAt ++ jobs.map .leave ++ [.unlock .weaver]

/-- The state as if the caller were about to take out the jobs, under what is `inside`. -/
def State.hooked [DecidableEq J] [DecidableEq T] (caller : T) (jobs : List J)
    (inside : List (Op J)) (s : State J P T σ) : State J P T σ where
  data := { s.data with
    place := fun job =>
      if job ∈ jobs then .held .leaving (.caller caller) else s.data.place job }
  stack := Function.update s.stack (.caller caller) (inside ++ takeOut jobs)

theorem State.hooked_stack [DecidableEq J] [DecidableEq T] (caller : T) (jobs : List J)
    (inside : List (Op J)) (s : State J P T σ) :
    (s.hooked caller jobs inside).stack (.caller caller) = inside ++ takeOut jobs :=
  Function.update_self ..

/-- The job waits in the queue, or the caller has it in hand already. -/
def State.WaitsUnder (caller : T) (job : J) (s : State J P T σ) : Prop :=
  s.data.place job = .queued ∨ s.data.place job = .held .leaving (.caller caller)

/-- The operations of the hook of a job. -/
def Op.inHook : Op J → Bool
  | aboutToBeDequeued _ | dequeueElements _ true | dequeueElement _ _ true | checkLast _
  | resetApi _ | removeBlocker _ => true
  | _ => false

section TakeOut

variable {jobs : List J}

theorem mem_takeOut {op : Op J} : op ∈ takeOut jobs ↔
    (∃ job ∈ jobs, op = .takeAt job) ∨ (∃ job ∈ jobs, op = .leave job) ∨
      op = .unlock .weaver := by
  simp [takeOut, eq_comm]

theorem owed_locks_takeOut : owed Op.locks (takeOut jobs) = [(.weaver, ())] := by
  rw [takeOut, List.append_assoc, Library.owed_append_of_nil (by simp [Op.locks]),
    Library.owed_append_of_nil (by simp [Op.locks])]
  rfl

theorem owed_jobs_takeOut [DecidableEq J] :
    owed Op.jobs (takeOut jobs) = jobs.map (·, .leaving) := by
  rw [takeOut, List.append_assoc, Library.owed_append_of_nil (by simp [Op.jobs]), owed,
    List.flatMap_append, List.flatMap_map, List.map_eq_flatMap]
  exact List.append_nil _

theorem layout_takeOut {F : Forest J P σ} : Layout F (takeOut jobs) := by
  have hunlock : Layout F (jobs.map .leave ++ [.unlock .weaver]) :=
    Layout.append_of_fits (by simp [Fits]) ⟨trivial, trivial⟩
  rw [takeOut, List.append_assoc]
  refine Layout.map_append (fun job hjob => ⟨?_, .inr ?_⟩) (by simp) hunlock
  · exact ⟨.unlock .weaver, by simp, by simp [Op.locks]⟩
  · exact List.mem_append_left _ (List.mem_map_of_mem hjob)

end TakeOut

section Hooked

variable [DecidableEq J] [DecidableEq P] [DecidableEq T] {F : Forest J P σ}
  {s next : State J P T σ} {caller : T} {jobs : List J} {inside : List (Op J)}
  {thread : Thread T}

omit [DecidableEq P] in
theorem State.hooked_nil (hstack : s.stack (.caller caller) = inside ++ [.unlock .weaver]) :
    s.hooked caller [] inside = s := by
  have hupdate : Function.update s.stack (.caller caller) (inside ++ takeOut []) = s.stack := by
    rw [show inside ++ takeOut [] = s.stack (.caller caller) from hstack.symm]
    exact Function.update_eq_self ..
  unfold State.hooked
  rw [hupdate]
  simp

omit [DecidableEq T] in
/-- What a hook calls belongs to it, and nothing of it changes the queue. -/
theorem Op.exec_inHook {op : Op J} {d : Data J P T σ} (h : op.inHook)
    (hmem : ∀ collection element, op = .dequeueElement collection element true →
      element ∉ d.assignments) :
    (exec F thread op d).1.assignments = d.assignments ∧
      ∀ later ∈ (exec F thread op d).2, later.inHook := by
  cases op with
  | aboutToBeDequeued job =>
      simp only [exec]
      split <;> simp [inHook, Data.lock]
  | dequeueElements collection locked =>
      cases locked with
      | true =>
          refine ⟨rfl, ?_⟩
          simp only [exec]
          split <;> simp [inHook, or_imp, forall_and]
      | false => cases h
  | dequeueElement collection element locked =>
      cases locked with
      | true =>
          simp only [exec, if_neg (hmem collection element rfl)]
          unfold elementDequeued
          split <;> simp [inHook]
      | false => cases h
  | checkLast collection =>
      simp only [exec]
      split <;> simp [Data.finalCleanup, Data.freeQueuePolicyResources, Data.recordCalls,
        Data.record, Data.setStatus]
  | resetApi _ | removeBlocker _ => exact ⟨rfl, by simp [exec]⟩
  | _ => cases h

theorem State.runThread_of_stack {op : Op J} {rest : List (Op J)}
    (hstack : s.stack thread = op :: rest)
    (hfree : ∀ mutex, wants F op = some mutex → s.data.holder mutex = none) :
    s.runThread F thread = some ⟨(exec F thread op s.data).1,
      Function.update s.stack thread ((exec F thread op s.data).2 ++ rest)⟩ := by
  unfold State.runThread
  rw [hstack]
  refine if_pos ?_
  cases hwants : wants F op with
  | none => rfl
  | some mutex => simpa using hfree mutex hwants

/-- **A step of a thread is a step of what is seen.** -/
theorem State.hooked_runThread
    (hstack : s.stack (.caller caller) = inside ++ [.unlock .weaver])
    (hs : (s.hooked caller jobs inside).Sound F)
    (hthread : thread = .caller caller → inside ≠ []) (hrun : s.runThread F thread = some next) :
    ∃ left, next.stack (.caller caller) = left ++ [.unlock .weaver] ∧
      (s.hooked caller jobs inside).runThread F thread = some (next.hooked caller jobs left) ∧
      (∀ op ∈ left, op ∈ inside ∨ ∃ top below, thread = .caller caller ∧ inside = top :: below ∧
        op ∈ (exec F thread top (s.hooked caller jobs inside).data).2) ∧
      ∀ job ∈ jobs, s.WaitsUnder caller job → next.WaitsUnder caller job := by
  obtain ⟨op, rest, hop, hfree, rfl⟩ := State.runThread_eq_some hrun
  obtain ⟨placed, hplaced⟩ := exec_setsPlaces (F := F) thread op s.data
  -- the places after the step, and those that are seen
  have hplace : (exec F thread op s.data).1.place = placed s.data.place :=
    congrArg (fun result => result.1.place) (hplaced.exec_eq s.data.place)
  have hexec : exec F thread op (s.hooked caller jobs inside).data =
      ({ (exec F thread op s.data).1 with
          place := placed (s.hooked caller jobs inside).data.place },
        (exec F thread op s.data).2) := hplaced.exec_eq _
  have hops := congrArg Prod.snd hexec
  have hseen : ∀ stack : Thread T → List (Op J),
      State.Sound F ⟨(exec F thread op (s.hooked caller jobs inside).data).1, stack⟩ →
      (∀ job ∈ jobs, .leave job ∈ stack (.caller caller)) →
      (exec F thread op (s.hooked caller jobs inside).data).1 =
        { (exec F thread op s.data).1 with
          place := fun job => if job ∈ jobs then .held .leaving (.caller caller)
            else (exec F thread op s.data).1.place job } := by
    intro stack hsound hleave
    rw [hexec] at hsound ⊢
    dsimp only
    congr 1
    funext job
    by_cases hjob : job ∈ jobs
    · rw [if_pos hjob]
      exact hsound.place_eq (hleave job hjob) (by simp [Op.jobs])
    · rw [if_neg hjob, hplace]
      rcases hplaced.fixed job with hkept | ⟨now, hnow⟩
      · rw [hkept, hkept]
        exact if_neg hjob
      · rw [hnow, hnow]
  have hleave : ∀ above : List (Op J), ∀ job ∈ jobs, .leave job ∈ above ++ takeOut jobs :=
    fun above job hjob => List.mem_append_right _ (mem_takeOut.mpr (.inr (.inl ⟨job, hjob, rfl⟩)))
  -- a job that the operation moves is where it is seen
  have hreal : ∀ stack : Thread T → List (Op J),
      State.Sound F ⟨(exec F thread op (s.hooked caller jobs inside).data).1, stack⟩ →
      (∀ job ∈ jobs, .leave job ∈ stack (.caller caller)) →
      ∀ job ∈ jobs, s.WaitsUnder caller job → ∀ stack,
        State.WaitsUnder caller job ⟨(exec F thread op s.data).1, stack⟩ := by
    intro stack hsound hleave job hjob hwaits stack'
    unfold State.WaitsUnder
    dsimp only
    rw [hplace]
    rcases hplaced.fixed job with hkept | ⟨now, hnow⟩
    · rw [hkept]
      exact hwaits
    · refine .inr ((hnow _).trans ((hnow (s.hooked caller jobs inside).data.place).symm.trans ?_))
      have hleaving : (exec F thread op (s.hooked caller jobs inside).data).1.place job =
          .held .leaving (.caller caller) := hsound.place_eq (hleave job hjob) (by simp [Op.jobs])
      rwa [hexec] at hleaving
  by_cases hcaller : thread = .caller caller
  · subst hcaller
    cases inside with
    | nil => exact absurd rfl (hthread rfl)
    | cons top below =>
        obtain ⟨rfl, rfl⟩ := List.cons.inj (hop.symm.trans hstack)
        have hstack' : (s.hooked caller jobs (op :: below)).stack (.caller caller) =
            op :: (below ++ takeOut jobs) := State.hooked_stack ..
        have hrun' := State.runThread_of_stack hstack' hfree
        have hsound := hs.runThread hrun'
        have htaken : ∀ job ∈ jobs, .leave job ∈ Function.update
            (s.hooked caller jobs (op :: below)).stack (.caller caller)
            ((exec F (.caller caller) op (s.hooked caller jobs (op :: below)).data).2 ++
              (below ++ takeOut jobs)) (.caller caller) := by
          intro job hjob
          rw [Function.update_self, ← List.append_assoc]
          exact hleave _ job hjob
        refine ⟨(exec F (.caller caller) op s.data).2 ++ below, by simp, ?_, ?_,
          fun job hjob hwaits => hreal _ hsound htaken job hjob hwaits _⟩
        · rw [hrun', hseen _ hsound htaken, hops]
          unfold State.hooked
          dsimp only
          rw [Function.update_idem, Function.update_idem, List.append_assoc]
        · intro later hlater
          rcases List.mem_append.mp hlater with hlater | hlater
          · exact .inr ⟨op, below, rfl, rfl, hops ▸ hlater⟩
          · exact .inl (List.mem_cons_of_mem _ hlater)
  · have hne : Thread.caller caller ≠ thread := fun heq => hcaller heq.symm
    have hstack' : (s.hooked caller jobs inside).stack thread = op :: rest :=
      (Function.update_of_ne hcaller ..).trans hop
    have hrun' := State.runThread_of_stack hstack' hfree
    have hsound := hs.runThread hrun'
    have htaken : ∀ job ∈ jobs, .leave job ∈ Function.update
        (s.hooked caller jobs inside).stack thread
        ((exec F thread op (s.hooked caller jobs inside).data).2 ++ rest) (.caller caller) := by
      intro job hjob
      rw [Function.update_of_ne hne, State.hooked_stack]
      exact hleave inside job hjob
    refine ⟨inside, ?_, ?_, fun later hlater => .inl hlater,
      fun job hjob hwaits => hreal _ hsound htaken job hjob hwaits _⟩
    · dsimp only
      rw [Function.update_of_ne hne]
      exact hstack
    · rw [hrun', hseen _ hsound htaken, hops]
      unfold State.hooked
      dsimp only
      rw [Function.update_comm hne]

omit [DecidableEq P] in
theorem State.hooked_beginCall {other : T} {ops : List (Op J)} (hne : other ≠ caller)
    (hcall : s.beginCall other ops = some next) :
    (s.hooked caller jobs inside).beginCall other ops = some (next.hooked caller jobs inside) := by
  obtain ⟨hidle, rfl⟩ := State.beginCall_eq_some hcall
  have hne' : Thread.caller other ≠ .caller caller := by simpa using hne
  have hidle' : (s.hooked caller jobs inside).stack (.caller other) = [] :=
    (Function.update_of_ne hne' ..).trans hidle
  unfold State.beginCall
  rw [if_pos hidle']
  unfold State.hooked
  dsimp only
  rw [Function.update_comm hne'.symm]

/-- What the threads of the program call, besides the one that dequeues. -/
theorem State.hooked_step {act : Act J T} (hact : ∀ thread, act ≠ .run thread)
    (hne : act.thread ≠ .caller caller) (hplace : ∀ job ∈ jobs, s.WaitsUnder caller job)
    (hstep : step F s act = some next) :
    step F (s.hooked caller jobs inside) act = some (next.hooked caller jobs inside) ∧
      next.data.assignments = s.data.assignments ∧
        ∀ job ∈ jobs, next.WaitsUnder caller job := by
  have hother : ∀ {other : T}, Thread.caller other ≠ .caller caller → other ≠ caller :=
    fun h heq => h (congrArg Thread.caller heq)
  cases act with
  | run thread => exact absurd rfl (hact thread)
  | enqueue other enqueued =>
      simp only [step, Option.ite_none_right_eq_some] at hstep ⊢
      obtain ⟨⟨hnodup, hfresh⟩, hcall⟩ := hstep
      have hnot : ∀ job ∈ enqueued, job ∉ jobs := by
        intro job hjob hmem
        rcases hplace job hmem with hwaits | hwaits <;>
        · rw [(hfresh job hjob).2] at hwaits
          cases hwaits
      have hcommute : (s.hooked caller jobs inside).takeUp (.caller other) enqueued =
          (s.takeUp (.caller other) enqueued).hooked caller jobs inside := by
        have hplaces : (fun job => if job ∈ enqueued then Place.held .pending (.caller other)
              else if job ∈ jobs then .held .leaving (.caller caller) else s.data.place job) =
            fun job => if job ∈ jobs then .held .leaving (.caller caller)
              else if job ∈ enqueued then .held .pending (.caller other)
                else s.data.place job := by
          funext job
          by_cases hjob : job ∈ enqueued
          · rw [if_pos hjob, if_neg (hnot job hjob), if_pos hjob]
          · rw [if_neg hjob, if_neg hjob]
        unfold State.hooked State.takeUp
        dsimp only
        rw [hplaces]
      refine ⟨⟨⟨hnodup, fun job hjob => ⟨(hfresh job hjob).1, ?_⟩⟩, ?_⟩, ?_⟩
      · exact (if_neg (hnot job hjob)).trans (hfresh job hjob).2
      · rw [hcommute]
        exact State.hooked_beginCall (hother hne) hcall
      · obtain ⟨-, rfl⟩ := State.beginCall_eq_some hcall
        refine ⟨rfl, fun job hjob => ?_⟩
        unfold State.WaitsUnder State.takeUp
        dsimp only
        rw [if_neg fun hmem => hnot job hmem hjob]
        exact hplace job hjob
  | stop other collection =>
      simp only [step, Option.ite_none_left_eq_some] at hstep ⊢
      refine ⟨⟨hstep.1, State.hooked_beginCall (hother hne) hstep.2⟩, ?_⟩
      obtain ⟨-, rfl⟩ := State.beginCall_eq_some hstep.2
      exact ⟨rfl, hplace⟩
  | requestAbort other _ | finish other =>
      refine ⟨State.hooked_beginCall (hother hne) hstep, ?_⟩
      obtain ⟨-, rfl⟩ := State.beginCall_eq_some hstep
      exact ⟨rfl, hplace⟩

end Hooked

/-! ## Jobs that are gone -/

/-- The job has been taken out of the queue, and the collection that it is an element of has not
been told. -/
def Place.isGone : Place T → Bool
  | held .leaving _ | lost => true
  | _ => false

section Gone

variable [DecidableEq J] [DecidableEq P] {F : Forest J P σ} {s : State J P T σ}
  {thread : Thread T} {job : J}

theorem State.Sound.exec_isGone {op : Op J} {rest : List (Op J)} (hs : s.Sound F)
    (hstack : s.stack thread = op :: rest)
    (hfree : ∀ mutex, wants F op = some mutex → s.data.holder mutex = none)
    (hgone : ((exec F thread op s.data).1.place job).isGone = true) :
    (s.data.place job).isGone = true ∨ op = .dequeueSelf job ∧ job ∈ s.data.assignments := by
  rcases hs.exec_place hstack hfree job with hsame | hmoves
  · exact .inl (hsame ▸ hgone)
  · generalize hbefore : s.data.place job = before at hmoves ⊢
    generalize (exec F thread op s.data).1.place job = after at hgone hmoves
    cases hmoves with
    | leaving => exact .inr ⟨rfl, hs.queued job hbefore⟩
    | lost => exact .inl rfl
    | _ => cases hgone

variable [DecidableEq T] {next : State J P T σ}

/-- No call begins with a job that is gone. -/
theorem step_isGone {act : Act J T} (hact : ∀ thread, act ≠ .run thread)
    (hstep : step F s act = some next) (hgone : (next.data.place job).isGone = true) :
    (s.data.place job).isGone = true := by
  cases act with
  | run thread => exact absurd rfl (hact thread)
  | enqueue caller jobs =>
      simp only [step, Option.ite_none_right_eq_some] at hstep
      obtain ⟨-, rfl⟩ := State.beginCall_eq_some hstep.2
      simp only [State.takeUp] at hgone
      split at hgone
      · cases hgone
      · exact hgone
  | stop caller collection =>
      simp only [step, Option.ite_none_left_eq_some] at hstep
      obtain ⟨-, rfl⟩ := State.beginCall_eq_some hstep.2
      exact hgone
  | requestAbort _ _ | finish _ =>
      obtain ⟨-, rfl⟩ := State.beginCall_eq_some hstep
      exact hgone

end Gone

/-! ## Runs -/

section Runs

variable [DecidableEq J] [DecidableEq P] [DecidableEq T] {G : Program J P σ}
  {s next : QueueState J P T σ} {st : State J P T σ} {caller : T} {index : ℕ}

/-- Nobody goes through the queue in order to clear it. -/
def QueueState.Quiet (s : QueueState J P T σ) : Prop :=
  ∀ caller ops, s.call caller = some ops → ∀ index, .dequeueFrom index ∉ ops

/-- What is seen of the threads and their calls. -/
inductive QueueState.Seen (s : QueueState J P T σ) : State J P T σ → Prop
  | quiet : s.Quiet → Seen s s.inner
  /-- the hooks of the jobs up to the index have been called -/
  | hooked {caller : T} {index : ℕ} {inside : List (Op J)} :
      s.call caller = some [.dequeueFrom index] →
      s.inner.stack (.caller caller) = inside ++ [.unlock .weaver] →
      (∀ op ∈ inside, op.inHook) →
      (∀ job ∈ s.inner.data.assignments.take index, s.inner.WaitsUnder caller job) →
      Seen s (s.inner.hooked caller (s.inner.data.assignments.take index) inside)

/-- A job is taken out of the queue, and the collection that it is an element of is not told: by
its own `stop`, or by one of the calls that dequeue. -/
def TakesOut (s : QueueState J P T σ) (act : QueueAct J T) (job : J) : Prop :=
  job ∈ s.inner.data.assignments ∧
    match act with
    | .inner (.run thread) => (s.inner.stack thread).head? = some (.dequeueSelf job)
    | .dequeue _ taken => taken = job
    | .dequeueAll _ => True
    | _ => False

instance (s : QueueState J P T σ) (act : QueueAct J T) (job : J) :
    Decidable (TakesOut s act job) :=
  match act with
  | .inner (.run _) => inferInstanceAs (Decidable (_ ∧ _ = _))
  | .inner (.enqueue _ _) | .inner (.stop _ _) | .inner (.requestAbort _ _) |
    .inner (.finish _) | .setJob _ | .clearJob _ | .requestAbort _ _ | .proceed _ =>
      inferInstanceAs (Decidable (_ ∧ False))
  | .dequeue _ taken => inferInstanceAs (Decidable (_ ∧ taken = job))
  | .dequeueAll _ => inferInstanceAs (Decidable (_ ∧ True))
/-- The job is gone, or it is in the queue and somebody is about to clear the queue. -/
def Doomed (s : QueueState J P T σ) (st : State J P T σ) (job : J) : Prop :=
  (st.data.place job).isGone = true ∨
    job ∈ s.inner.data.assignments ∧ ∃ caller index, s.call caller = some [.dequeueFrom index]

/-- What is seen stays sound, and the jobs that get lost are those that the step takes out. -/
structure Follows (G : Program J P σ) (s : QueueState J P T σ) (st : State J P T σ)
    (act : QueueAct J T) (next : QueueState J P T σ) (st' : State J P T σ) : Prop where
  seen : next.Seen st'
  sound : st'.Sound G.toForest
  doomed : ∀ job, Doomed next st' job → Doomed s st job ∨ TakesOut s act job

omit [DecidableEq P] in
theorem Follows.of_quiet {act : QueueAct J T} (hquiet : next.Quiet)
    (hsound : next.inner.Sound G.toForest)
    (hgone : ∀ job, (next.inner.data.place job).isGone = true →
      Doomed s st job ∨ TakesOut s act job) : Follows G s st act next next.inner where
  seen := .quiet hquiet
  sound := hsound
  doomed job hdoomed := by
    rcases hdoomed with hleft | ⟨-, caller, index, hcall⟩
    · exact hgone job hleft
    · exact absurd List.mem_cons_self (hquiet caller _ hcall index)

omit [DecidableEq J] [DecidableEq P] in
theorem QueueState.Quiet.goOn (h : s.Quiet) {ops : List (CallOp J)}
    (hops : ∀ index, .dequeueFrom index ∉ ops) : (s.goOn caller ops).Quiet := by
  intro other rest hcall index
  by_cases heq : other = caller
  · subst heq
    have hnow : (s.goOn other ops).call other = some ops := Function.update_self ..
    rw [hnow] at hcall
    cases hcall
    exact hops index
  · exact h other rest ((Function.update_of_ne heq ..).symm.trans hcall) index

/-- `dequeue` of a job that is in the queue. -/
theorem State.Sound.dequeue {F : Forest J P σ} {s : State J P T σ} (hs : s.Sound F) {job : J}
    (hidle : s.stack (.caller caller) = []) (hfree : s.data.holder .weaver = none)
    (hmem : job ∈ s.data.assignments) :
    State.Sound F ⟨(exec F (.caller caller) (.dequeueSelf job) s.data).1,
      Function.update s.stack (.caller caller)
        (exec F (.caller caller) (.dequeueSelf job) s.data).2⟩ := by
  have hlocked := hs.lockQueue hidle hfree
  have hstack : Function.update s.stack (.caller caller) [Op.unlock .weaver] (.caller caller) =
      [.unlock .weaver] := Function.update_self ..
  have hhook : State.Sound F
      ⟨(s.data.lock .weaver (.caller caller)).moveTo job (.held .leaving (.caller caller)),
        Function.update (Function.update s.stack (.caller caller) [.unlock .weaver])
          (.caller caller)
          [.aboutToBeDequeued job, .takeAt job, .unlock .weaver, .leave job]⟩ := by
    refine hlocked.hook (hs.queued_of_free hfree hmem) ?_ ?_ ?_ ?_ (by simp) (by simp)
    · simp [Stacked, Fits, Releases, Op.locks]
    · dsimp only
      rw [hstack]
      rfl
    · dsimp only
      rw [hstack]
      rfl
    · intro other htaken
      dsimp only at htaken
      rw [hstack] at htaken
      simp at htaken
  have hlogged := hhook.of_log (s.data.log ++ [.dequeued job])
  rw [Function.update_idem] at hlogged
  simp only [exec, if_pos hmem]
  exact hlogged

theorem follows_run (hquiet : s.Quiet) (hs : s.inner.Sound G.toForest) {thread : Thread T}
    {inner : State J P T σ} (hrun : s.inner.runThread G.toForest thread = some inner) :
    Follows G s s.inner (.inner (.run thread)) { s with inner := inner } inner := by
  refine Follows.of_quiet hquiet (hs.runThread hrun) fun job hgone => ?_
  obtain ⟨op, rest, hstack, hfree, rfl⟩ := State.runThread_eq_some hrun
  rcases hs.exec_isGone hstack hfree hgone with hbefore | ⟨rfl, hmem⟩
  · exact .inl (.inl hbefore)
  · exact .inr ⟨hmem, by simp [hstack]⟩

/-- A call that does not go through the queue goes on. -/
theorem follows_proceed (hquiet : s.Quiet) (hs : s.inner.Sound G.toForest)
    {ops : List (CallOp J)} (hcall : s.call caller = some ops)
    (hstack : s.inner.stack (.caller caller) = [.unlock .weaver])
    (hstep : s.proceed G.toForest caller ops = some next) :
    Follows G s s.inner (.proceed caller) next next.inner := by
  have hrest : ∀ op rest, s.call caller = some (op :: rest) →
      ∀ index, .dequeueFrom index ∉ rest := by
    intro op rest hcall index hmem
    exact hquiet caller _ hcall index (List.mem_cons_of_mem _ hmem)
  match ops with
  | [] =>
      obtain ⟨inner, hrun, rfl⟩ := Option.map_eq_some_iff.mp hstep
      have hquiet' : QueueState.Quiet
          { s with inner := inner, call := Function.update s.call caller none } := by
        intro other rest hother index
        dsimp only at hother
        have hne : other ≠ caller := by
          rintro rfl
          rw [Function.update_self] at hother
          cases hother
        exact hquiet other rest ((Function.update_of_ne hne ..).symm.trans hother) index
      refine .of_quiet hquiet' (hs.runThread hrun) fun job hgone => .inl (.inl ?_)
      obtain ⟨op, rest, hop, hfree, rfl⟩ := State.runThread_eq_some hrun
      rcases hs.exec_isGone hop hfree hgone with hbefore | ⟨rfl, -⟩
      · exact hbefore
      · simp [hstack] at hop
  | .visit number :: rest =>
      simp only [QueueState.proceed, Option.ite_none_right_eq_some, Option.some.injEq] at hstep
      obtain ⟨-, rfl⟩ := hstep
      have hlocked : QueueState.Quiet
        { s with threadHolder := Function.update s.threadHolder number (some caller) } := hquiet
      refine .of_quiet (hlocked.goOn ?_) hs fun job hgone => .inl (.inl hgone)
      intro index
      simpa using hrest _ _ hcall index
  | .requestAbort (.decorator decoratee) :: rest =>
      rw [← Option.some.inj hstep]
      refine .of_quiet (hquiet.goOn ?_) hs fun job hgone => .inl (.inl hgone)
      intro index
      simpa using hrest _ _ hcall index
  | .requestAbort (.job target) :: rest =>
      rw [← Option.some.inj hstep]
      refine .of_quiet (hquiet.goOn (hrest _ _ hcall)) ?_ fun job hgone => .inl (.inl hgone)
      exact hs.push trivial rfl rfl (by simp [hstack])
  | .unlockThread number :: rest =>
      rw [← Option.some.inj hstep]
      have hunlocked : QueueState.Quiet
        { s with threadHolder := Function.update s.threadHolder number none } := hquiet
      exact .of_quiet (hunlocked.goOn (hrest _ _ hcall)) hs fun job hgone => .inl (.inl hgone)
  | .dequeueFrom index :: rest =>
      exact absurd List.mem_cons_self (hquiet caller _ hcall index)

/-- Every step while nobody is about to clear the queue. -/
theorem follows_of_quiet {act : QueueAct J T} (hquiet : s.Quiet) (hs : s.inner.Sound G.toForest)
    (hstep : queueStep G s act = some next) : ∃ st', Follows G s s.inner act next st' := by
  cases act with
  | inner act =>
      cases act with
      | run thread =>
          simp only [queueStep, Option.ite_none_right_eq_some] at hstep
          obtain ⟨inner, hinner, rfl⟩ := Option.map_eq_some_iff.mp hstep.2
          exact ⟨inner, follows_run hquiet hs hinner⟩
      | enqueue _ _ | stop _ _ | requestAbort _ _ | finish _ =>
          obtain ⟨inner, hinner, rfl⟩ := Option.map_eq_some_iff.mp hstep
          exact ⟨inner, .of_quiet hquiet (hs.step hinner) fun job hgone =>
            .inl (.inl (step_isGone (by simp) hinner hgone))⟩
  | setJob number =>
      simp only [queueStep] at hstep
      split at hstep
      · rw [Option.ite_none_right_eq_some] at hstep
        rw [← Option.some.inj hstep.2]
        exact ⟨s.inner, .of_quiet hquiet hs fun job hgone => .inl (.inl hgone)⟩
      · cases hstep
  | clearJob number =>
      simp only [queueStep] at hstep
      split at hstep
      · rw [Option.ite_none_right_eq_some] at hstep
        rw [← Option.some.inj hstep.2]
        exact ⟨s.inner, .of_quiet hquiet hs fun job hgone => .inl (.inl hgone)⟩
      · cases hstep
  | requestAbort caller inventory =>
      simp only [queueStep, QueueState.beginCall, Option.ite_none_right_eq_some,
        Option.some.injEq] at hstep
      obtain ⟨⟨hidle, hfree⟩, rfl⟩ := hstep
      have hvisits : (s.goOn caller (inventory.map .visit)).Quiet := hquiet.goOn (by simp)
      exact ⟨_, .of_quiet hvisits (hs.lockQueue hidle hfree) fun job hgone => .inl (.inl hgone)⟩
  | dequeue caller taken =>
      simp only [queueStep, Option.ite_none_right_eq_some] at hstep
      obtain ⟨⟨hidle, hfree⟩, hstep⟩ := hstep
      split at hstep
      · rename_i hmem
        rw [← Option.some.inj hstep]
        refine ⟨_, .of_quiet hquiet (hs.dequeue hidle hfree hmem) fun job hgone => ?_⟩
        by_cases hjob : job = taken
        · subst hjob
          exact .inr ⟨hmem, rfl⟩
        · refine .inl (.inl ?_)
          have hplace : (exec G.toForest (.caller caller) (.dequeueSelf taken)
              s.inner.data).1.place job = s.inner.data.place job := by
            simp only [exec, if_pos hmem]
            exact Function.update_of_ne hjob ..
          exact hplace ▸ hgone
      · rw [← Option.some.inj hstep]
        exact ⟨s.inner, .of_quiet hquiet hs fun job hgone => .inl (.inl hgone)⟩
  | dequeueAll caller =>
      simp only [queueStep, QueueState.beginCall, Option.ite_none_right_eq_some,
        Option.some.injEq] at hstep
      obtain ⟨⟨hidle, hfree⟩, rfl⟩ := hstep
      refine ⟨⟨s.inner.data.lock .weaver (.caller caller),
        Function.update s.inner.stack (.caller caller) [.unlock .weaver]⟩, ?_,
        hs.lockQueue hidle hfree, fun job hdoomed => ?_⟩
      · -- no hook has been called yet
        have hseen : QueueState.Seen { s with
            inner := ⟨s.inner.data.lock .weaver (.caller caller),
              Function.update s.inner.stack (.caller caller) [.unlock .weaver]⟩
            call := Function.update s.call caller (some [.dequeueFrom 0]) }
            (State.hooked caller (s.inner.data.assignments.take 0) []
              ⟨s.inner.data.lock .weaver (.caller caller),
                Function.update s.inner.stack (.caller caller) [.unlock .weaver]⟩) :=
          .hooked (Function.update_self ..) (Function.update_self ..) (by simp) (by simp)
        rwa [List.take_zero, State.hooked_nil (Function.update_self ..)] at hseen
      · rcases hdoomed with hgone | ⟨hmem, -⟩
        · exact .inl (.inl hgone)
        · exact .inr ⟨hmem, trivial⟩
  | proceed caller =>
      simp only [queueStep] at hstep
      split at hstep
      · rename_i ops hcall
        rw [Option.ite_none_right_eq_some] at hstep
        exact ⟨_, follows_proceed hquiet hs hcall hstep.1 hstep.2⟩
      · cases hstep

section Hooked

variable {inside : List (Op J)}

/-- The step of a thread while the hooks of the jobs are being called. -/
theorem follows_hooked_run (hkeep : s.Keeping fun _ => true)
    (hcall : s.call caller = some [.dequeueFrom index])
    (hstack : s.inner.stack (.caller caller) = inside ++ [.unlock .weaver])
    (hinside : ∀ op ∈ inside, op.inHook)
    (hplace : ∀ job ∈ s.inner.data.assignments.take index, s.inner.WaitsUnder caller job)
    (hs : (s.inner.hooked caller (s.inner.data.assignments.take index) inside).Sound G.toForest)
    {thread : Thread T} {inner : State J P T σ} (hmay : s.MayRun thread)
    (hrun : s.inner.runThread G.toForest thread = some inner) :
    ∃ st', Follows G s (s.inner.hooked caller (s.inner.data.assignments.take index) inside)
      (.inner (.run thread)) { s with inner := inner } st' := by
  have hholder := hkeep.holder hcall
  have hthread : thread = .caller caller → inside ≠ [] := by
    rintro rfl rfl
    rcases hmay with hnone | hnot
    · rw [hcall] at hnone
      cases hnone
    · exact hnot hstack
  obtain ⟨left, hleft, hseen, hops, hmoved⟩ := State.hooked_runThread hstack hs hthread hrun
  have hs' := hs.runThread hseen
  obtain ⟨op, rest, hop, hfree, hnext⟩ := State.runThread_eq_some hseen
  have htold : ∀ top, thread = .caller caller → top ∈ inside → ∀ collection element,
      top = .dequeueElement collection element true → element ∉ (s.inner.hooked caller
        (s.inner.data.assignments.take index) inside).data.assignments := by
    rintro top rfl htop collection element rfl
    have hop : .dequeueElement collection element true ∈ (s.inner.hooked caller
        (s.inner.data.assignments.take index) inside).stack (.caller caller) := by
      rw [State.hooked_stack]
      exact List.mem_append_left _ htop
    exact hs.notMem_of_hook hop rfl
  -- what the caller does is part of a hook
  have hhook : thread = .caller caller → op ∈ inside := by
    rintro rfl
    cases inside with
    | nil => exact absurd rfl (hthread rfl)
    | cons top below =>
        rw [State.hooked_stack] at hop
        obtain ⟨rfl, -⟩ := List.cons.inj hop
        exact List.mem_cons_self
  have hsame : inner.data.assignments = s.inner.data.assignments := by
    have hafter : inner.data.assignments = (exec G.toForest thread op _).1.assignments :=
      congrArg (fun state => state.data.assignments) hnext
    rw [hafter]
    rcases hs.exec_assignments hop with hsame | hmine
    · exact hsame
    · have hcaller : thread = .caller caller := Option.some.inj (hmine.symm.trans hholder)
      exact (Op.exec_inHook (hinside _ (hhook hcaller)) (htold _ hcaller (hhook hcaller))).1
  refine ⟨inner.hooked caller (s.inner.data.assignments.take index) left, ?_, hs', ?_⟩
  · have hleftHook : ∀ later ∈ left, later.inHook := by
      intro later hlater
      rcases hops later hlater with hmem | ⟨top, below, hcaller, rfl, hmem⟩
      · exact hinside later hmem
      · exact (Op.exec_inHook (hinside top List.mem_cons_self)
          (htold top hcaller List.mem_cons_self)).2 later hmem
    rw [← hsame]
    refine .hooked hcall hleft hleftHook fun job hjob => ?_
    dsimp only at hjob ⊢
    rw [hsame] at hjob
    exact hmoved job hjob (hplace job hjob)
  · rintro job (hgone | ⟨hmem, hclearing⟩)
    · rw [hnext] at hgone
      rcases hs.exec_isGone hop hfree hgone with hbefore | ⟨rfl, hmem⟩
      · exact .inl (.inl hbefore)
      · refine .inr ⟨hmem, ?_⟩
        by_cases hcaller : thread = .caller caller
        · cases hinside _ (hhook hcaller)
        · have hreal : s.inner.stack thread = .dequeueSelf job :: rest :=
            (Function.update_of_ne hcaller ..).symm.trans hop
          simp [hreal]
    · exact .inl (.inr ⟨hsame ▸ hmem, hclearing⟩)

omit [DecidableEq P] in
/-- The hook of the next job is called. -/
theorem follows_hook (hkeep : s.Keeping fun _ => true)
    (hcall : s.call caller = some [.dequeueFrom index])
    (hstack : s.inner.stack (.caller caller) = [.unlock .weaver])
    (hplace : ∀ job ∈ s.inner.data.assignments.take index, s.inner.WaitsUnder caller job)
    (hs : (s.inner.hooked caller (s.inner.data.assignments.take index) []).Sound G.toForest)
    {job : J} (hjob : s.inner.data.assignments[index]? = some job) :
    ∃ st', Follows G s (s.inner.hooked caller (s.inner.data.assignments.take index) [])
      (.proceed caller) ((s.goOn caller [.dequeueFrom (index + 1)]).callOp caller
        (.aboutToBeDequeued job)) st' := by
  have htake : s.inner.data.assignments.take (index + 1) =
      s.inner.data.assignments.take index ++ [job] := by
    rw [List.take_add_one, hjob]
    rfl
  have hnodup : (s.inner.data.assignments.take index ++ [job]).Nodup := by
    rw [← htake]
    exact hs.nodup.sublist (List.take_sublist ..)
  have hmem : job ∈ s.inner.data.assignments := List.mem_of_getElem? hjob
  obtain ⟨jobs, hjobs⟩ : ∃ jobs, s.inner.data.assignments.take index = jobs := ⟨_, rfl⟩
  rw [hjobs] at htake hnodup hplace hs ⊢
  have hnot : job ∉ jobs := by
    intro hin
    exact List.disjoint_of_nodup_append hnodup hin List.mem_cons_self
  have hseen : (s.inner.hooked caller jobs []).data.place job = s.inner.data.place job :=
    if_neg hnot
  -- it waits in the queue
  have hqueued : (s.inner.hooked caller jobs []).data.place job = .queued := by
    rcases hs.listed job hmem with hqueued | ⟨thread, htaken⟩
    · exact hqueued
    · have hcaller : thread = .caller caller :=
        Option.some.inj ((hs.of_takeAt htaken).1.symm.trans (hkeep.holder hcall))
      subst hcaller
      rw [State.hooked_stack] at htaken
      rcases mem_takeOut.mp htaken with ⟨other, hother, heq⟩ | ⟨other, -, heq⟩ | heq
      · cases heq
        exact absurd hother hnot
      · cases heq
      · cases heq
  have hstack' := State.hooked_stack caller jobs [] s.inner
  have hhook : State.Sound G.toForest
      ⟨(s.inner.hooked caller jobs []).data.moveTo job (.held .leaving (.caller caller)),
        Function.update (s.inner.hooked caller jobs []).stack (.caller caller)
          (.aboutToBeDequeued job :: takeOut (jobs ++ [job]))⟩ := by
    refine hs.hook hqueued ⟨⟨?_, ?_⟩, layout_takeOut⟩ ?_ ?_ ?_ ?_ ?_
    · exact ⟨.unlock .weaver, mem_takeOut.mpr (.inr (.inr rfl)), by simp [Op.locks]⟩
    · exact mem_takeOut.mpr (.inl ⟨job, by simp, rfl⟩)
    · rw [hstack', List.nil_append, owed_locks_takeOut]
      exact owed_locks_takeOut
    · rw [hstack', List.nil_append, owed_jobs_takeOut]
      have howed : owed Op.jobs (.aboutToBeDequeued job :: takeOut (jobs ++ [job])) =
          (jobs ++ [job]).map (·, .leaving) := owed_jobs_takeOut
      rw [howed, List.map_append]
      exact List.perm_append_comm
    · intro other htaken
      rw [hstack', List.nil_append, mem_takeOut] at htaken
      rcases htaken with ⟨taken, htaken, heq⟩ | ⟨taken, -, heq⟩ | heq
      · refine List.mem_cons_of_mem _ (mem_takeOut.mpr (.inl ⟨taken, ?_, heq⟩))
        exact List.mem_append_left _ htaken
      · cases heq
      · cases heq
    · exact List.mem_cons_of_mem _ (mem_takeOut.mpr (.inl ⟨job, by simp, rfl⟩))
    · intro candidates hop
      simp [takeOut] at hop
  have hplaces : Function.update (s.inner.hooked caller jobs []).data.place job
        (.held .leaving (.caller caller)) =
      fun other => if other ∈ jobs ++ [job] then .held .leaving (.caller caller)
        else s.inner.data.place other := by
    funext other
    by_cases hother : other = job
    · subst hother
      simp
    · rw [Function.update_of_ne hother]
      simp [State.hooked, hother]
  refine ⟨_, ?_, hhook, fun other hdoomed => .inl ?_⟩
  · have hnow : QueueState.Seen ((s.goOn caller [.dequeueFrom (index + 1)]).callOp caller
        (.aboutToBeDequeued job)) (State.hooked caller (s.inner.data.assignments.take (index + 1))
          [.aboutToBeDequeued job] { s.inner with
            stack := Function.update s.inner.stack (.caller caller)
              (.aboutToBeDequeued job :: s.inner.stack (.caller caller)) }) := by
      refine .hooked (Function.update_self ..) ?_ (by simp [Op.inHook]) ?_
      · exact (Function.update_self ..).trans (congrArg (List.cons _) hstack)
      · intro other hother
        have hin : other ∈ jobs ++ [job] := htake ▸ hother
        rcases List.mem_append.mp hin with hother | hother
        · exact hplace other hother
        · rw [List.mem_singleton.mp hother]
          exact .inl (hseen.symm.trans hqueued)
    rw [htake] at hnow
    unfold Data.moveTo
    rw [hplaces]
    unfold State.hooked at hnow ⊢
    dsimp only at hnow ⊢
    rw [Function.update_idem] at hnow ⊢
    exact hnow
  · rcases hdoomed with hgone | ⟨hother, -⟩
    · by_cases heq : other = job
      · exact .inr ⟨heq ▸ hmem, caller, index, hcall⟩
      · refine .inl ?_
        have hkept : (Data.moveTo job (.held .leaving (.caller caller))
            (s.inner.hooked caller jobs []).data).place other =
              (s.inner.hooked caller jobs []).data.place other := Function.update_of_ne heq ..
        rwa [hkept] at hgone
    · exact .inr ⟨hother, caller, index, hcall⟩

omit [DecidableEq P] in
/-- The hooks of all jobs have been called, and the queue is cleared. -/
theorem follows_clear (hkeep : s.Keeping fun _ => true)
    (hcall : s.call caller = some [.dequeueFrom index])
    (hstack : s.inner.stack (.caller caller) = [.unlock .weaver])
    (hs : (s.inner.hooked caller (s.inner.data.assignments.take index) []).Sound G.toForest)
    (hend : s.inner.data.assignments[index]? = none) :
    ∃ st', Follows G s (s.inner.hooked caller (s.inner.data.assignments.take index) [])
      (.proceed caller) ((s.clear G.toForest).goOn caller []) st' := by
  rw [List.take_of_length_le (List.getElem?_eq_none_iff.mp hend)] at hs ⊢
  have hholder := hkeep.holder hcall
  have hstack' := State.hooked_stack caller s.inner.data.assignments [] s.inner
  have hlocks : owed Op.locks ((s.inner.hooked caller s.inner.data.assignments []).stack
      (.caller caller)) = [(.weaver, ())] := by
    rw [hstack']
    exact owed_locks_takeOut
  have hjobs : (owed Op.jobs ((s.inner.hooked caller s.inner.data.assignments []).stack
      (.caller caller))).map Prod.fst = s.inner.data.assignments := by
    rw [hstack', List.nil_append, owed_jobs_takeOut, List.map_map]
    exact List.map_id' _
  have hcleared := (hs.clear hholder hjobs (fun job hmem => if_pos hmem) hlocks).of_log
    (s.inner.data.log ++ s.inner.data.assignments.map .dequeued)
  have hquiet : ((s.clear G.toForest).goOn caller []).Quiet := by
    intro other ops hother index
    by_cases heq : other = caller
    · subst heq
      have hnow : ((s.clear G.toForest).goOn other []).call other = some [] :=
        Function.update_self ..
      rw [hnow] at hother
      cases hother
      simp
    · have hsame : s.call other = some ops := (Function.update_of_ne heq ..).symm.trans hother
      have hmine := (hkeep.holder hsame).symm.trans hholder
      simp [heq] at hmine
  have hclear : (⟨{ (s.inner.hooked caller s.inner.data.assignments []).data with
        assignments := []
        place := fun job => if job ∈ s.inner.data.assignments then
          if G.parent job = none then .fresh else .lost
          else (s.inner.hooked caller s.inner.data.assignments []).data.place job
        log := s.inner.data.log ++ s.inner.data.assignments.map .dequeued },
      Function.update (s.inner.hooked caller s.inner.data.assignments []).stack (.caller caller)
        [.unlock .weaver]⟩ : State J P T σ) = ((s.clear G.toForest).goOn caller []).inner := by
    have hplaces : (fun job => if job ∈ s.inner.data.assignments then
          if G.parent job = none then Place.fresh else .lost
          else (s.inner.hooked caller s.inner.data.assignments []).data.place job) =
        fun job => if job ∈ s.inner.data.assignments then
          if G.parent job = none then .fresh else .lost else s.inner.data.place job := by
      funext job
      by_cases hmem : job ∈ s.inner.data.assignments
      · rw [if_pos hmem, if_pos hmem]
      · rw [if_neg hmem, if_neg hmem]
        exact if_neg hmem
    rw [hplaces]
    unfold State.hooked
    dsimp only
    rw [Function.update_idem, ← hstack, Function.update_eq_self]
    rfl
  have hsound : ((s.clear G.toForest).goOn caller []).inner.Sound G.toForest := by
    rw [← hclear]
    exact hcleared
  refine ⟨_, .of_quiet hquiet hsound fun job hgone => .inl ?_⟩
  by_cases hmem : job ∈ s.inner.data.assignments
  · exact .inr ⟨hmem, caller, index, hcall⟩
  · refine .inl ?_
    have hkept : ((s.clear G.toForest).goOn caller []).inner.data.place job =
        s.inner.data.place job := if_neg hmem
    have hseen : (s.inner.hooked caller s.inner.data.assignments []).data.place job =
        s.inner.data.place job := if_neg hmem
    rw [hseen, ← hkept]
    exact hgone

/-- A call that begins while the hooks of the jobs are being called. -/
theorem follows_hooked_call (hcall : s.call caller = some [.dequeueFrom index])
    (hstack : s.inner.stack (.caller caller) = inside ++ [.unlock .weaver])
    (hinside : ∀ op ∈ inside, op.inHook)
    (hplace : ∀ job ∈ s.inner.data.assignments.take index, s.inner.WaitsUnder caller job)
    (hs : (s.inner.hooked caller (s.inner.data.assignments.take index) inside).Sound G.toForest)
    {act : Act J T} (hact : ∀ thread, act ≠ .run thread) {inner : State J P T σ}
    (hstep : step G.toForest s.inner act = some inner) :
    ∃ st', Follows G s (s.inner.hooked caller (s.inner.data.assignments.take index) inside)
      (.inner act) { s with inner := inner } st' := by
  have hidle := stack_of_begins hact hstep
  have hne : act.thread ≠ .caller caller := by
    intro heq
    rw [heq, hstack] at hidle
    simp at hidle
  obtain ⟨hseen, hsame, hkept⟩ := State.hooked_step hact hne hplace hstep
  refine ⟨inner.hooked caller (s.inner.data.assignments.take index) inside, ?_,
    hs.step hseen, ?_⟩
  · rw [← hsame]
    refine .hooked hcall ((step_stack_of_ne G.toForest hstep hne.symm).trans hstack)
      hinside fun job hjob => ?_
    dsimp only at hjob ⊢
    rw [hsame] at hjob
    exact hkept job hjob
  · rintro job (hgone | ⟨hmem, hclearing⟩)
    · exact .inl (.inl (step_isGone hact hseen hgone))
    · exact .inl (.inr ⟨hsame ▸ hmem, hclearing⟩)

/-- Every step while the hooks of the jobs are being called. -/
theorem follows_of_hooked {act : QueueAct J T} (hkeep : s.Keeping fun _ => true)
    (hcall : s.call caller = some [.dequeueFrom index])
    (hstack : s.inner.stack (.caller caller) = inside ++ [.unlock .weaver])
    (hinside : ∀ op ∈ inside, op.inHook)
    (hplace : ∀ job ∈ s.inner.data.assignments.take index, s.inner.WaitsUnder caller job)
    (hs : (s.inner.hooked caller (s.inner.data.assignments.take index) inside).Sound G.toForest)
    (hstep : queueStep G s act = some next) :
    ∃ st', Follows G s (s.inner.hooked caller (s.inner.data.assignments.take index) inside)
      act next st' := by
  have hholder := hkeep.holder hcall
  cases act with
  | inner act =>
      cases act with
      | run thread =>
          simp only [queueStep, Option.ite_none_right_eq_some] at hstep
          obtain ⟨inner, hinner, rfl⟩ := Option.map_eq_some_iff.mp hstep.2
          exact follows_hooked_run hkeep hcall hstack hinside hplace hs hstep.1 hinner
      | enqueue _ _ | stop _ _ | requestAbort _ _ | finish _ =>
          obtain ⟨inner, hinner, rfl⟩ := Option.map_eq_some_iff.mp hstep
          exact follows_hooked_call hcall hstack hinside hplace hs (by simp) hinner
  | setJob number =>
      simp only [queueStep] at hstep
      split at hstep
      · rw [Option.ite_none_right_eq_some] at hstep
        rw [← Option.some.inj hstep.2]
        exact ⟨_, .hooked hcall hstack hinside hplace, hs, fun job hdoomed => .inl hdoomed⟩
      · cases hstep
  | clearJob number =>
      simp only [queueStep] at hstep
      split at hstep
      · rw [Option.ite_none_right_eq_some] at hstep
        rw [← Option.some.inj hstep.2]
        exact ⟨_, .hooked hcall hstack hinside hplace, hs, fun job hdoomed => .inl hdoomed⟩
      · cases hstep
  | requestAbort _ _ | dequeueAll _ =>
      simp [queueStep, QueueState.beginCall, hholder] at hstep
  | dequeue _ _ => simp [queueStep, hholder] at hstep
  | proceed other =>
      simp only [queueStep] at hstep
      split at hstep
      · rename_i ops hother
        -- it is the caller that has the weaver mutex
        have hmine := (hkeep.holder hother).symm.trans hholder
        cases hmine
        rw [Option.ite_none_right_eq_some] at hstep
        obtain ⟨hempty, hstep⟩ := hstep
        rw [hstack] at hempty
        have hnil : inside = [] := by simpa using hempty
        subst hnil
        rw [hcall] at hother
        cases hother
        simp only [QueueState.proceed] at hstep
        split at hstep
        · rename_i job hjob
          rw [← Option.some.inj hstep]
          exact follows_hook hkeep hcall hstack hplace hs hjob
        · rename_i hend
          rw [← Option.some.inj hstep]
          exact follows_clear hkeep hcall hstack hs hend
      · cases hstep

end Hooked

/-- **What is seen of a run stays sound**, and the jobs that get lost are those that are taken
out. -/
theorem queueStep_follows {act : QueueAct J T} (hkeep : s.Keeping fun _ => true)
    (hseen : s.Seen st) (hs : st.Sound G.toForest) (hstep : queueStep G s act = some next) :
    ∃ st', Follows G s st act next st' := by
  cases hseen with
  | quiet hquiet => exact follows_of_quiet hquiet hs hstep
  | hooked hcall hstack hinside hplace =>
      exact follows_of_hooked hkeep hcall hstack hinside hplace hs hstep

/-- In a run that takes out none of the jobs, none of them gets lost. -/
theorem queueRuns_seen {ok : QueueState J P T σ → QueueAct J T → Prop}
    {start : Weaver.Start J P σ} {p : J → Prop} (hrun : QueueRuns G ok start s)
    (hok : ∀ state act, ok state act → ∀ job, p job → ¬ TakesOut state act job) :
    ∃ st, s.Seen st ∧ st.Sound G.toForest ∧ ∀ job, p job → ¬ Doomed s st job := by
  suffices hall : s.Keeping (fun _ => true) ∧
      ∃ st, s.Seen st ∧ st.Sound G.toForest ∧ ∀ job, p job → ¬ Doomed s st job from hall.2
  refine hrun.invariant (I := fun s => s.Keeping (fun _ => true) ∧
    ∃ st, s.Seen st ∧ st.Sound G.toForest ∧ ∀ job, p job → ¬ Doomed s st job) ?_ ?_
  · refine ⟨QueueState.keeping_init start, (QueueState.init start).inner, .quiet ?_,
      sound_init start, ?_⟩
    · intro caller ops hcall
      cases hcall
    · rintro job - (hgone | ⟨hmem, -⟩)
      · cases hgone
      · cases hmem
  · rintro before act after ⟨hkeep, st, hseen, hs, hleft⟩ hact hstep
    obtain ⟨st', hseen', hs', hdoomed⟩ := queueStep_follows hkeep hseen hs hstep
    refine ⟨?_, st', hseen', hs', fun job hjob hlost => ?_⟩
    · exact hkeep.step (fun _ => rfl) (fun _ => rfl) (fun _ _ _ _ _ _ _ _ _ => rfl) hstep
    · rcases hdoomed job hlost with hbefore | htakes
      · exact hleft job hjob hbefore
      · exact hok before act hact job hjob htakes

end Runs

end ThreadWeaver.Collection
