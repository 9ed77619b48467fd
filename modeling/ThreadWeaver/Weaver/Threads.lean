import ThreadWeaver.Weaver.Control
import ThreadWeaver.Weaver.Ledger

/-!
# The threads of the weaver

What each section of the weaver does to the threads, the counters and the state object.  The
ledger says where the jobs are; here the jobs are left aside.  `WorkerTurn` lists what a step
of a worker can do, so that a property of the threads has one case for each turn and not one
for each branch of the source.
-/

namespace ThreadWeaver.Weaver

variable {J P T σ ε : Type*}

/-- The state objects whose `activated` wakes the workers. -/
def wakesWorkers : StateId → Bool
  | .workingHard | .suspending => true
  | .inConstruction | .suspended | .shuttingDown | .destructed => false

/-- The event of a call to the queue. -/
def Event.ofCall : Event J P ε → Bool
  | .enqueued _ | .dequeued _ | .configured _ => true
  | _ => false

/-- The thread that was deleted in the event. -/
def Event.deletedThread? : Event J P ε → Option ℕ
  | .deleted thread => some thread
  | _ => none

/-! ## Waking -/

@[simp] theorem Worker.wake_wake (worker : Worker J) : worker.wake.wake = worker.wake := by
  obtain ⟨pc, activations⟩ := worker
  cases pc <;> rfl

namespace State

variable (s : State J P T σ ε)

/-- The workers after `wakeAll`, or as they were. -/
def WakesFrom (next s : State J P T σ ε) : Prop :=
  next.worker = s.worker ∨ next.worker = fun thread => (s.worker thread).wake

theorem WakesFrom.refl : s.WakesFrom s := .inl rfl

variable {s}

theorem WakesFrom.trans {mid next : State J P T σ ε} (hnext : next.WakesFrom mid)
    (hmid : mid.WakesFrom s) : next.WakesFrom s := by
  rcases hnext with hnext | hnext
  · rcases hmid with hmid | hmid
    · exact .inl (hnext.trans hmid)
    · exact .inr (hnext.trans hmid)
  · rcases hmid with hmid | hmid
    · exact .inr (by rw [hnext, hmid])
    · exact .inr (by simp [hnext, hmid])

variable (s)

/-! ## Creating threads -/

/-- The number of threads that `adjustInventory` creates. -/
def room (numberOfNewJobs : ℕ) : ℕ :=
  min (s.inventoryMax - s.inventory.length) numberOfNewJobs

/-- `adjustInventory` creates threads as long as there is room. -/
theorem adjustInventory_eq (n : ℕ) :
    s.adjustInventory n = { s with
      inventory := s.inventory ++ List.range' s.createdThreads (s.room n)
      createdThreads := s.createdThreads + s.room n } := by
  have hiterate : ∀ k, createThread^[k] s = { s with
      inventory := s.inventory ++ List.range' s.createdThreads k
      createdThreads := s.createdThreads + k } := by
    intro k
    induction k with
    | zero => simp
    | succ k ih =>
        rw [Function.iterate_succ_apply', ih]
        simp [createThread, List.range'_concat, Nat.add_assoc]
  exact hiterate _

theorem room_le (n : ℕ) : s.room n ≤ s.inventoryMax - s.inventory.length :=
  Nat.min_le_left _ _

/-- The threads of `next` are those of `s` and `k` new ones, for which there was room. -/
structure Hires (k : ℕ) (next s : State J P T σ ε) : Prop where
  inventory : next.inventory = s.inventory ++ List.range' s.createdThreads k
  createdThreads : next.createdThreads = s.createdThreads + k
  inventoryMax : next.inventoryMax = s.inventoryMax
  hasRoom : k ≤ s.inventoryMax - s.inventory.length

theorem Hires.refl : Hires 0 s s := ⟨by simp, rfl, rfl, Nat.zero_le _⟩

variable {s}

theorem Hires.trans {k l : ℕ} {mid next : State J P T σ ε} (hnext : Hires l next mid)
    (hmid : Hires k mid s) : Hires (k + l) next s where
  inventory := by
    rw [hnext.inventory, hmid.inventory, hmid.createdThreads, List.append_assoc,
      List.range'_append_1]
  createdThreads := by rw [hnext.createdThreads, hmid.createdThreads, Nat.add_assoc]
  inventoryMax := hnext.inventoryMax.trans hmid.inventoryMax
  hasRoom := by
    have hroom := hmid.hasRoom
    have hmore := hnext.hasRoom
    rw [hmid.inventory, hmid.inventoryMax, List.length_append, List.length_range'] at hmore
    omega

/-- Threads are created only as long as the inventory is below its maximum. -/
theorem Hires.length_le {k : ℕ} {next : State J P T σ ε} (h : Hires k next s) :
    k = 0 ∨ next.inventory.length ≤ next.inventoryMax := by
  have hroom := h.hasRoom
  rw [h.inventory, h.inventoryMax, List.length_append, List.length_range']
  omega

variable (s)

theorem hires_adjustInventory (n : ℕ) : Hires (s.room n) (s.adjustInventory n) s := by
  rw [adjustInventory_eq]
  exact ⟨rfl, rfl, rfl, s.room_le n⟩

/-! ## Changing the state object -/

theorem setStateP_eq (id : StateId) :
    s.setStateP id = if s.stateId = id then s else { s with
      stateId := id
      worker := if wakesWorkers id then fun thread => (s.worker thread).wake else s.worker
      log := s.log ++ (if id = .suspended then [.suspended] else []) ++ [.stateChanged id] } := by
  unfold setStateP
  cases id <;> simp [activated, wakesWorkers, reschedule, record]

section

variable (id : StateId)

@[simp] theorem stateId_setStateP : (s.setStateP id).stateId = id :=
  congrArg Prod.fst (s.control_setStateP id)

@[simp] theorem caller_setStateP : (s.setStateP id).caller = s.caller :=
  congrArg Prod.snd (s.control_setStateP id)

theorem wakesFrom_setStateP : (s.setStateP id).WakesFrom s := by
  rw [setStateP_eq]
  cases id <;> split <;> first | exact .inl rfl | exact .inr rfl

theorem worker_setStateP (hid : wakesWorkers id = false) : (s.setStateP id).worker = s.worker := by
  rw [setStateP_eq, hid]
  split <;> rfl

@[simp] theorem inventory_setStateP : (s.setStateP id).inventory = s.inventory := by
  rw [setStateP_eq]
  split <;> rfl

@[simp] theorem inventoryMax_setStateP : (s.setStateP id).inventoryMax = s.inventoryMax := by
  rw [setStateP_eq]
  split <;> rfl

@[simp] theorem createdThreads_setStateP :
    (s.setStateP id).createdThreads = s.createdThreads := by
  rw [setStateP_eq]
  split <;> rfl

@[simp] theorem expiredThreads_setStateP :
    (s.setStateP id).expiredThreads = s.expiredThreads := by
  rw [setStateP_eq]
  split <;> rfl

@[simp] theorem active_setStateP : (s.setStateP id).active = s.active := by
  rw [setStateP_eq]
  split <;> rfl

@[simp] theorem assignments_setStateP : (s.setStateP id).assignments = s.assignments := by
  rw [setStateP_eq]
  split <;> rfl

end

/-! ## The active count -/

theorem adjustActiveThreadCount_eq (diff : ℤ) :
    s.adjustActiveThreadCount diff = { s with
      active := s.active + diff
      log := s.log ++
        if s.assignments.isEmpty ∧ s.active + diff = 0 then [.finished] else [] } := by
  by_cases hlast : s.assignments.isEmpty ∧ s.active + diff = 0
  · simp [adjustActiveThreadCount, hlast]
  · simp only [adjustActiveThreadCount, if_neg hlast, List.append_nil]

/-! ## Entering `takeFirstAvailableJobOrSuspendOrWait` -/

theorem enterTakeFirst_eq (wasBusy : Bool) :
    s.enterTakeFirst wasBusy = { s with
      expiredThreads := []
      inventory := s.inventory ++ List.range' s.createdThreads (s.room 1)
      createdThreads := s.createdThreads + s.room 1
      active := if wasBusy then s.active + -1 else s.active
      log := s.log ++ s.expiredThreads.map .deleted ++
        if wasBusy ∧ s.assignments.isEmpty ∧ s.active + -1 = 0 then [.finished] else [] } := by
  have hroom : s.deleteExpiredThreads.room 1 = s.room 1 := rfl
  unfold enterTakeFirst
  dsimp only
  rw [adjustInventory_eq, hroom]
  cases wasBusy with
  | false => simp [deleteExpiredThreads]
  | true =>
      rw [if_pos rfl, adjustActiveThreadCount_eq]
      simp [deleteExpiredThreads]

section

variable (wasBusy : Bool)

@[simp] theorem stateId_enterTakeFirst : (s.enterTakeFirst wasBusy).stateId = s.stateId := by
  rw [enterTakeFirst_eq]

@[simp] theorem caller_enterTakeFirst : (s.enterTakeFirst wasBusy).caller = s.caller := by
  rw [enterTakeFirst_eq]

@[simp] theorem assignments_enterTakeFirst :
    (s.enterTakeFirst wasBusy).assignments = s.assignments := by
  rw [enterTakeFirst_eq]

@[simp] theorem expiredThreads_enterTakeFirst :
    (s.enterTakeFirst wasBusy).expiredThreads = [] := by
  rw [enterTakeFirst_eq]

@[simp] theorem active_enterTakeFirst :
    (s.enterTakeFirst wasBusy).active = if wasBusy then s.active + -1 else s.active := by
  rw [enterTakeFirst_eq]

/-- The expired threads are deleted, and the queue may have become idle. -/
theorem log_enterTakeFirst : ∃ idle : List (Event J P ε), (∀ event ∈ idle, event = .finished) ∧
    (s.enterTakeFirst wasBusy).log = s.log ++ s.expiredThreads.map .deleted ++ idle := by
  rw [enterTakeFirst_eq]
  refine ⟨_, ?_, rfl⟩
  intro event hevent
  split at hevent
  · exact List.mem_singleton.mp hevent
  · cases hevent

theorem hires_enterTakeFirst : Hires (s.room 1) (s.enterTakeFirst wasBusy) s := by
  rw [enterTakeFirst_eq]
  exact ⟨rfl, rfl, rfl, s.room_le 1⟩

end

/-! ## Calls to the queue -/

/-- What a call to the queue does to the threads: it may wake the workers and hire `k`
threads, and leaves everything else alone. -/
structure QueueCall (k : ℕ) (next s : State J P T σ ε) : Prop where
  hires : Hires k next s
  wakes : next.WakesFrom s
  active : next.active = s.active
  expiredThreads : next.expiredThreads = s.expiredThreads
  stateId : next.stateId = s.stateId
  caller : next.caller = s.caller
  log : ∃ events, next.log = s.log ++ events ∧ ∀ event ∈ events, Event.ofCall event

theorem QueueCall.refl : QueueCall 0 s s :=
  ⟨Hires.refl s, WakesFrom.refl s, rfl, rfl, rfl, rfl, [], by simp, by simp⟩

variable {s}

theorem QueueCall.trans {k l : ℕ} {mid next : State J P T σ ε} (hnext : QueueCall l next mid)
    (hmid : QueueCall k mid s) : QueueCall (k + l) next s where
  hires := hnext.hires.trans hmid.hires
  wakes := hnext.wakes.trans hmid.wakes
  active := hnext.active.trans hmid.active
  expiredThreads := hnext.expiredThreads.trans hmid.expiredThreads
  stateId := hnext.stateId.trans hmid.stateId
  caller := hnext.caller.trans hmid.caller
  log := by
    obtain ⟨before, hbefore, hmem⟩ := hmid.log
    obtain ⟨after, hafter, hmem'⟩ := hnext.log
    refine ⟨before ++ after, by rw [hafter, hbefore, List.append_assoc], ?_⟩
    intro event hevent
    rcases List.mem_append.mp hevent with h | h
    · exact hmem event h
    · exact hmem' event h

variable (s)

theorem queueCall_reschedule : QueueCall 0 s.reschedule s :=
  ⟨⟨by simp [reschedule], rfl, rfl, Nat.zero_le _⟩, .inr rfl, rfl, rfl, rfl, rfl, [],
    by simp [reschedule], by simp⟩

/-- After the maximum has been set there is a thread, unless there may be none or there was
none where there could have been. -/
theorem queueCall_setMaximumNumberOfThreadsP (cap : ℕ) :
    ∃ k, QueueCall k (s.setMaximumNumberOfThreadsP cap) { s with inventoryMax := cap } ∧
      (s.setMaximumNumberOfThreadsP cap).assignments = s.assignments ∧
      (s.inventoryMax = 0 → 0 < cap → (s.setMaximumNumberOfThreadsP cap).inventory ≠ []) := by
  unfold setMaximumNumberOfThreadsP
  dsimp only
  by_cases hfirst : s.inventoryMax = 0 ∧ 0 < cap
  · rw [if_pos hfirst]
    have hhires := hires_adjustInventory { s with inventoryMax := cap } 1
    rw [adjustInventory_eq] at hhires ⊢
    refine ⟨_, ⟨⟨hhires.inventory, hhires.createdThreads, hhires.inventoryMax,
      hhires.hasRoom⟩, .inr rfl, rfl, rfl, rfl, rfl, [], by simp [reschedule], by simp⟩, rfl, ?_⟩
    intro _ _ hnil
    have hlength := congrArg List.length hnil
    simp only [reschedule, List.length_append, List.length_range', room,
      List.length_nil] at hlength
    omega
  · rw [if_neg hfirst]
    exact ⟨0, queueCall_reschedule _, rfl, fun hzero hcap => absurd ⟨hzero, hcap⟩ hfirst⟩

section Queue

variable [DecidableEq J] (S : Setup J P σ ε)

theorem queueCall_enqueueJob (n : ℕ) (job : J) :
    QueueCall (s.room n) (s.enqueueJob S n job) s := by
  have hhires := s.hires_adjustInventory n
  unfold enqueueJob
  rw [adjustInventory_eq] at hhires ⊢
  exact ⟨⟨hhires.inventory, hhires.createdThreads, hhires.inventoryMax, hhires.hasRoom⟩,
    .inr rfl, rfl, rfl, rfl, rfl, [.enqueued job], rfl, by simp [Event.ofCall]⟩

theorem queueCall_enqueueP (jobs : List (Option J)) :
    ∃ k, QueueCall k (s.enqueueP S jobs) s := by
  unfold enqueueP
  generalize jobs.length = n
  induction jobs generalizing s with
  | nil => exact ⟨0, QueueCall.refl s⟩
  | cons head rest ih =>
      cases head with
      | none => exact ih s
      | some job =>
          obtain ⟨k, hrest⟩ := ih (s.enqueueJob S n job)
          exact ⟨_, hrest.trans (s.queueCall_enqueueJob S n job)⟩

/-- After a batch has been enqueued there is a thread, unless there may be none. -/
theorem inventory_enqueueP (jobs : List (Option J)) :
    s.enqueueP S jobs = s ∨ (0 < s.inventoryMax → (s.enqueueP S jobs).inventory ≠ []) := by
  have hlength : jobs ≠ [] → 0 < jobs.length := List.length_pos_iff.mpr
  unfold enqueueP
  generalize jobs.length = n at hlength ⊢
  induction jobs generalizing s with
  | nil => exact .inl rfl
  | cons head rest ih =>
      have hn : 0 < n := hlength (List.cons_ne_nil head rest)
      cases head with
      | none => exact ih s fun _ => hn
      | some job =>
          -- the first job creates a thread if there is none
          have hcall := s.queueCall_enqueueJob S n job
          have hsome : 0 < s.inventoryMax → (s.enqueueJob S n job).inventory ≠ [] := by
            intro hmax hnil
            have hlength := congrArg List.length hcall.hires.inventory
            rw [hnil, List.length_append, List.length_range', room] at hlength
            simp only [List.length_nil] at hlength
            omega
          right
          rcases ih (s.enqueueJob S n job) (fun _ => hn) with hsame | hmore
          · intro hmax
            rw [List.foldl_cons, hsame]
            exact hsome hmax
          · intro hmax
            exact hmore (hcall.hires.inventoryMax ▸ hmax)

theorem queueCall_takeOut (job : J) : QueueCall 0 (s.takeOut job) s :=
  ⟨⟨by simp [takeOut], rfl, rfl, Nat.zero_le _⟩, .inl rfl, rfl, rfl, rfl, rfl,
    [.dequeued job], rfl, by simp [Event.ofCall]⟩

/-- Dequeueing takes jobs out of the list and leaves the threads alone. -/
structure Dequeues (next s : State J P T σ ε) : Prop where
  call : QueueCall 0 next s
  worker : next.worker = s.worker
  policies : next.queuePolicies = s.queuePolicies ∧ next.policyState = s.policyState
  sublist : next.assignments.Sublist s.assignments

omit [DecidableEq J] in
theorem Dequeues.refl : Dequeues s s :=
  ⟨QueueCall.refl s, rfl, ⟨rfl, rfl⟩, .refl _⟩

variable {s}

omit [DecidableEq J] in
theorem Dequeues.trans {mid next : State J P T σ ε} (hnext : Dequeues next mid)
    (hmid : Dequeues mid s) : Dequeues next s where
  call := hnext.call.trans hmid.call
  worker := hnext.worker.trans hmid.worker
  policies := ⟨hnext.policies.1.trans hmid.policies.1, hnext.policies.2.trans hmid.policies.2⟩
  sublist := hnext.sublist.trans hmid.sublist

variable (s)

theorem dequeues_takeOut (job : J) : Dequeues (s.takeOut job) s :=
  ⟨s.queueCall_takeOut job, rfl, ⟨rfl, rfl⟩, List.erase_sublist⟩

theorem dequeues_dequeueP (job : J) : Dequeues (s.dequeueP S job).2 s :=
  dequeueP_keeps S (I := fun next => Dequeues next s)
    (fun other mid h => (mid.dequeues_takeOut other).trans h) job (Dequeues.refl s)

theorem dequeues_dequeueAllP : Dequeues (s.dequeueAllP S) s := by
  have hlooped : Dequeues (s.dequeueLoop S s.assignments.length 0) s :=
    dequeueLoop_keeps S (I := fun next => Dequeues next s)
      (fun other mid h => (mid.dequeues_takeOut other).trans h) _ _ (Dequeues.refl s)
  refine Dequeues.trans ?_ hlooped
  refine ⟨⟨⟨by simp [dequeueAllP], rfl, rfl, Nat.zero_le _⟩, .inl rfl, rfl, rfl, rfl, rfl,
    _, rfl, ?_⟩, rfl, ⟨rfl, rfl⟩, List.nil_sublist _⟩
  simp [Event.ofCall]

end Queue

/-! ## Deleting threads -/

/-- The threads that have been deleted, in order. -/
def deletedThreads (s : State J P T σ ε) : List ℕ := s.log.filterMap Event.deletedThread?

variable {s}

theorem deletedThreads_append {next : State J P T σ ε} {events : List (Event J P ε)}
    (hlog : next.log = s.log ++ events) :
    next.deletedThreads = s.deletedThreads ++ events.filterMap Event.deletedThread? := by
  rw [deletedThreads, hlog, List.filterMap_append, deletedThreads]

theorem deletedThreads_eq {next : State J P T σ ε} {events : List (Event J P ε)}
    (hlog : next.log = s.log ++ events) (hnone : ∀ event ∈ events, event.deletedThread? = none) :
    next.deletedThreads = s.deletedThreads := by
  rw [deletedThreads_append hlog, List.filterMap_eq_nil_iff.mpr hnone, List.append_nil]

theorem QueueCall.deletedThreads {k : ℕ} {next : State J P T σ ε} (hcall : QueueCall k next s) :
    next.deletedThreads = s.deletedThreads := by
  obtain ⟨events, hlog, hof⟩ := hcall.log
  refine deletedThreads_eq hlog fun event hevent => ?_
  have hof := hof event hevent
  cases event <;> first | rfl | cases hof

variable (s)

@[simp] theorem deletedThreads_setStateP (id : StateId) :
    (s.setStateP id).deletedThreads = s.deletedThreads := by
  rw [setStateP_eq]
  split
  · rfl
  · refine deletedThreads_eq (List.append_assoc _ _ _) fun event hevent => ?_
    rw [List.mem_append, List.mem_singleton] at hevent
    rcases hevent with hevent | rfl
    · split at hevent
      · rw [List.mem_singleton.mp hevent]
        rfl
      · cases hevent
    · rfl

/-- The expired threads are deleted by the next worker that applies. -/
theorem deletedThreads_enterTakeFirst (wasBusy : Bool) :
    (s.enterTakeFirst wasBusy).deletedThreads = s.deletedThreads ++ s.expiredThreads := by
  obtain ⟨idle, hidle, hlog⟩ := s.log_enterTakeFirst wasBusy
  have hnone : idle.filterMap Event.deletedThread? = [] :=
    List.filterMap_eq_nil_iff.mpr fun event hevent => by
      rw [hidle event hevent]
      rfl
  have hmap : ∀ threads : List ℕ,
      (threads.map (.deleted : ℕ → Event J P ε)).filterMap Event.deletedThread? = threads := by
    intro threads
    induction threads with
    | nil => rfl
    | cons thread rest ih =>
        rw [List.map_cons, List.filterMap_cons, ih]
        rfl
  rw [List.append_assoc] at hlog
  rw [deletedThreads_append hlog, List.filterMap_append, hnone, hmap, List.append_nil]

/-- The threads that have expired or been deleted. -/
def gone : List ℕ := s.expiredThreads ++ s.deletedThreads

@[simp] theorem gone_setStateP (id : StateId) : (s.setStateP id).gone = s.gone := by
  rw [gone, expiredThreads_setStateP, deletedThreads_setStateP, gone]

theorem QueueCall.gone {k : ℕ} {next s : State J P T σ ε} (hcall : QueueCall k next s) :
    next.gone = s.gone := by
  rw [State.gone, hcall.expiredThreads, hcall.deletedThreads, State.gone]

end State

/-! ## Workers -/

/-- From one position of a worker to the next, outside of
`takeFirstAvailableJobOrSuspendOrWait`; `id` is the state object. -/
inductive WorkerPc.Next (id : StateId) : WorkerPc J → WorkerPc J → Prop
  | enter : Next id .started (.applyForWork false)
  | dispatch (wasBusy : Bool) : Next id (.applyForWork wasBusy) (.dispatched id wasBusy)
  | rest {of : StateId} (wasBusy : Bool) : of = .suspended ∨ of = .inConstruction →
      Next id (.dispatched of wasBusy) (.waitForAvailableJob wasBusy)
  | leave {of : StateId} (wasBusy : Bool) : of = .shuttingDown ∨ of = .destructed →
      Next id (.dispatched of wasBusy) .exited
  | skip (wasBusy : Bool) : id = .shuttingDown ∨ id = .destructed →
      Next id (.waitForAvailableJob wasBusy) (.applyForWork wasBusy)
  | block (wasBusy : Bool) : ¬ (id = .shuttingDown ∨ id = .destructed) →
      Next id (.waitForAvailableJob wasBusy) (.blockThread wasBusy)
  | wait (wasBusy : Bool) : Next id (.blockThread wasBusy) (.waiting wasBusy)
  | wake (wasBusy : Bool) : Next id (.woken wasBusy) (.applyForWork wasBusy)
  | work {job : J} {phase later : Phase} : phase ≠ .returned →
      (later.beforeEnd → phase.beforeEnd) → Next id (.busy job phase) (.busy job later)
  | report {job : J} : Next id (.busy job .returned) (.applyForWork true)

/-- What a step of a worker outside of `takeFirstAvailableJobOrSuspendOrWait` does: the
worker gets to `pc`.  Only the free of a policy changes the state of the policies. -/
structure Passes (thread : ℕ) (pc : WorkerPc J) (next s : State J P T σ ε) : Prop where
  worker : ∃ activations, next.worker = Function.update s.worker thread ⟨pc, activations⟩
  crew : next.inventory = s.inventory ∧ next.inventoryMax = s.inventoryMax ∧
    next.createdThreads = s.createdThreads
  active : next.active = s.active
  expiredThreads : next.expiredThreads = s.expiredThreads
  stateId : next.stateId = s.stateId
  caller : next.caller = s.caller
  assignments : next.assignments = s.assignments
  queuePolicies : next.queuePolicies = s.queuePolicies
  policyState : (∀ job index, (s.worker thread).pc ≠ .busy job (.freeing index)) →
    next.policyState = s.policyState
  log : next.log = s.log ∨ ∃ job status, next.log = s.log ++ [.ended job status]

section Turn

variable [DecidableEq J] [DecidableEq P] {S : Setup J P σ ε} {thread : ℕ}
  {s next : State J P T σ ε}

/-- What a step of a worker can do. -/
inductive WorkerTurn (S : Setup J P σ ε) (thread : ℕ) (s : State J P T σ ε) :
    State J P T σ ε → Prop
  | pass {pc : WorkerPc J} {next : State J P T σ ε} :
      WorkerPc.Next s.stateId (s.worker thread).pc pc → Passes thread pc next s →
      WorkerTurn S thread s next
  /-- the weaver is not working any more -/
  | again {wasBusy : Bool} : (s.worker thread).pc = .dispatched .workingHard wasBusy →
      s.ExpiredFinished → s.stateId ≠ .workingHard →
      WorkerTurn S thread s ((s.enterTakeFirst wasBusy).moveTo thread (.applyForWork false))
  /-- the inventory has outgrown its maximum -/
  | expire {wasBusy : Bool} : (s.worker thread).pc = .dispatched .workingHard wasBusy →
      s.ExpiredFinished → s.stateId = .workingHard →
      s.inventoryMax < (s.enterTakeFirst wasBusy).inventory.length →
      WorkerTurn S thread s
        (State.returnTo thread .exited
          { s.enterTakeFirst wasBusy with
            inventory := (s.enterTakeFirst wasBusy).inventory.filter (· ≠ thread)
            expiredThreads := [thread] })
  | assign {wasBusy : Bool} {job : J} {rest : List J} {state : σ} :
      (s.worker thread).pc = .dispatched .workingHard wasBusy →
      s.ExpiredFinished → s.stateId = .workingHard →
      (s.enterTakeFirst wasBusy).inventory.length ≤ s.inventoryMax →
      State.scan S s.queuePolicies s.assignments s.policyState = (some job, rest, state) →
      WorkerTurn S thread s
        (State.returnTo thread (.busy job .assigned)
          (State.adjustActiveThreadCount 1
            (State.record (.assigned thread job)
              { s.enterTakeFirst wasBusy with assignments := rest, policyState := state })))
  | wait {wasBusy : Bool} {rest : List J} {state : σ} :
      (s.worker thread).pc = .dispatched .workingHard wasBusy →
      s.ExpiredFinished → s.stateId = .workingHard →
      (s.enterTakeFirst wasBusy).inventory.length ≤ s.inventoryMax →
      State.scan S s.queuePolicies s.assignments s.policyState = (none, rest, state) →
      WorkerTurn S thread s
        (State.moveTo thread (.waiting false)
          { s.enterTakeFirst wasBusy with assignments := rest, policyState := state })
  | suspend {wasBusy : Bool} : (s.worker thread).pc = .dispatched .suspending wasBusy →
      s.ExpiredFinished → s.stateId = .suspending → (s.enterTakeFirst wasBusy).active = 0 →
      WorkerTurn S thread s
        (((s.enterTakeFirst wasBusy).setStateP .suspended).moveTo thread
          (.waitForAvailableJob false))
  /-- others are still active, or the weaver is not suspending any more -/
  | drop {wasBusy : Bool} : (s.worker thread).pc = .dispatched .suspending wasBusy →
      s.ExpiredFinished → ¬ ((s.enterTakeFirst wasBusy).active = 0 ∧ s.stateId = .suspending) →
      WorkerTurn S thread s
        ((s.enterTakeFirst wasBusy).moveTo thread (.waitForAvailableJob false))

omit [DecidableEq J] [DecidableEq P] in
/-- A worker moves on and everything else stays. -/
private theorem passes_moveTo (s : State J P T σ ε) (thread : ℕ) (pc : WorkerPc J) :
    Passes thread pc (s.moveTo thread pc) s :=
  ⟨⟨_, rfl⟩, ⟨rfl, rfl, rfl⟩, rfl, rfl, rfl, rfl, rfl, rfl, fun _ => rfl, .inl rfl⟩

omit [DecidableEq J] [DecidableEq P] in
private theorem workingHard_turn {wasBusy : Bool}
    (hpc : (s.worker thread).pc = .dispatched .workingHard wasBusy)
    (hexpired : s.ExpiredFinished) :
    WorkerTurn S thread s (s.workingHardApplyForWork S thread wasBusy) := by
  obtain ⟨hassignments, hqueuePolicies, hpolicyState⟩ := s.ledger_enterTakeFirst wasBusy
  have hid := s.stateId_enterTakeFirst wasBusy
  have hmax := (s.hires_enterTakeFirst wasBusy).inventoryMax
  unfold State.workingHardApplyForWork State.takeFirstAvailableJobOrSuspendOrWait
  simp only [Bool.false_eq_true, false_and, if_false, or_false]
  by_cases hworking : s.stateId = .workingHard
  · rw [if_neg (by simp [hworking])]
    by_cases hfull : (s.enterTakeFirst wasBusy).inventoryMax <
        (s.enterTakeFirst wasBusy).inventory.length
    · rw [if_pos hfull]
      have hturn := WorkerTurn.expire (S := S) hpc hexpired hworking (hmax ▸ hfull)
      simpa using hturn
    · rw [if_neg hfull]
      have hroom := Nat.le_of_not_lt hfull
      rw [hmax] at hroom
      have hscan : State.scan S s.queuePolicies s.assignments s.policyState =
          State.scan S (s.enterTakeFirst wasBusy).queuePolicies
            (s.enterTakeFirst wasBusy).assignments (s.enterTakeFirst wasBusy).policyState := by
        rw [hqueuePolicies, hassignments, hpolicyState]
      generalize State.scan S (s.enterTakeFirst wasBusy).queuePolicies
        (s.enterTakeFirst wasBusy).assignments (s.enterTakeFirst wasBusy).policyState = result
        at hscan ⊢
      obtain ⟨found, rest, state⟩ := result
      cases found with
      | none => exact .wait hpc hexpired hworking hroom hscan
      | some job => exact .assign hpc hexpired hworking hroom hscan
  · have hnot : (s.enterTakeFirst wasBusy).stateId ≠ .workingHard := hid ▸ hworking
    rw [if_pos hnot]
    exact .again hpc hexpired hworking

omit [DecidableEq J] [DecidableEq P] in
private theorem suspending_turn {wasBusy : Bool}
    (hpc : (s.worker thread).pc = .dispatched .suspending wasBusy)
    (hexpired : s.ExpiredFinished) :
    WorkerTurn S thread s (s.suspendingApplyForWork S thread wasBusy) := by
  have hid := s.stateId_enterTakeFirst wasBusy
  unfold State.suspendingApplyForWork State.takeFirstAvailableJobOrSuspendOrWait
  simp only [true_and, or_true, if_true]
  by_cases hlast : (s.enterTakeFirst wasBusy).active = 0 ∧
      (s.enterTakeFirst wasBusy).stateId = .suspending
  · rw [if_pos hlast]
    exact .suspend hpc hexpired (hid ▸ hlast.2) hlast.1
  · rw [if_neg hlast]
    exact .drop hpc hexpired (hid ▸ hlast)

omit [DecidableEq P] in
/-- **Every step of a worker is one of the turns.** -/
theorem workerStep_turn (hstep : workerStep S thread s = some next) :
    WorkerTurn S thread s next := by
  cases hpc : (s.worker thread).pc with
  | started =>
      simp only [workerStep, hpc, Option.some.injEq] at hstep
      subst hstep
      exact .pass (hpc ▸ .enter)
        ⟨⟨_, rfl⟩, ⟨rfl, rfl, rfl⟩, rfl, rfl, rfl, rfl, rfl, rfl, fun _ => rfl, .inl rfl⟩
  | applyForWork wasBusy =>
      simp only [workerStep, hpc, Option.some.injEq] at hstep
      subst hstep
      exact .pass (hpc ▸ .dispatch wasBusy)
        ⟨⟨_, rfl⟩, ⟨rfl, rfl, rfl⟩, rfl, rfl, rfl, rfl, rfl, rfl, fun _ => rfl, .inl rfl⟩
  | dispatched id wasBusy =>
      cases id with
      | workingHard =>
          simp only [workerStep, hpc, Option.ite_none_right_eq_some, Option.some.injEq] at hstep
          exact hstep.2 ▸ workingHard_turn hpc hstep.1
      | suspending =>
          simp only [workerStep, hpc, Option.ite_none_right_eq_some, Option.some.injEq] at hstep
          exact hstep.2 ▸ suspending_turn hpc hstep.1
      | suspended =>
          simp only [workerStep, hpc, Option.some.injEq] at hstep
          exact hstep ▸ .pass (hpc ▸ .rest wasBusy (.inl rfl)) (passes_moveTo s thread _)
      | inConstruction =>
          simp only [workerStep, hpc, Option.some.injEq] at hstep
          exact hstep ▸ .pass (hpc ▸ .rest wasBusy (.inr rfl)) (passes_moveTo s thread _)
      | shuttingDown =>
          simp only [workerStep, hpc, Option.some.injEq] at hstep
          subst hstep
          exact .pass (hpc ▸ .leave wasBusy (.inl rfl))
            ⟨⟨_, rfl⟩, ⟨rfl, rfl, rfl⟩, rfl, rfl, rfl, rfl, rfl, rfl, fun _ => rfl, .inl rfl⟩
      | destructed =>
          simp only [workerStep, hpc, Option.some.injEq] at hstep
          subst hstep
          exact .pass (hpc ▸ .leave wasBusy (.inr rfl))
            ⟨⟨_, rfl⟩, ⟨rfl, rfl, rfl⟩, rfl, rfl, rfl, rfl, rfl, rfl, fun _ => rfl, .inl rfl⟩
  | waitForAvailableJob wasBusy =>
      simp only [workerStep, hpc, Option.some.injEq] at hstep
      subst hstep
      split
      · rename_i hover
        exact .pass (hpc ▸ .skip wasBusy hover) (passes_moveTo s thread _)
      · rename_i hover
        exact .pass (hpc ▸ .block wasBusy hover) (passes_moveTo s thread _)
  | blockThread wasBusy =>
      simp only [workerStep, hpc, Option.some.injEq] at hstep
      exact hstep ▸ .pass (hpc ▸ .wait wasBusy) (passes_moveTo s thread _)
  | woken wasBusy =>
      simp only [workerStep, hpc, Option.some.injEq] at hstep
      exact hstep ▸ .pass (hpc ▸ .wake wasBusy) (passes_moveTo s thread _)
  | waiting wasBusy | exited => simp [workerStep, hpc] at hstep
  | busy job phase =>
      cases phase with
      | assigned =>
          simp only [workerStep, hpc, Option.some.injEq] at hstep
          exact hstep ▸ .pass (hpc ▸ .work (by simp) (by simp [Phase.beforeEnd]))
            (passes_moveTo s thread _)
      | executing | running =>
          simp only [workerStep, hpc, Option.some.injEq] at hstep
          subst hstep
          exact .pass (hpc ▸ .work (by simp) (by simp [Phase.beforeEnd]))
            ⟨⟨_, rfl⟩, ⟨rfl, rfl, rfl⟩, rfl, rfl, rfl, rfl, rfl, rfl, fun _ => rfl, .inl rfl⟩
      | ending =>
          simp only [workerStep, hpc, Option.some.injEq] at hstep
          subst hstep
          exact .pass (hpc ▸ .work (by simp) (by simp [Phase.beforeEnd]))
            ⟨⟨_, rfl⟩, ⟨rfl, rfl, rfl⟩, rfl, rfl, rfl, rfl, rfl, rfl, fun _ => rfl,
              .inr ⟨_, _, rfl⟩⟩
      | freeing index =>
          simp only [workerStep, hpc] at hstep
          split at hstep
          · rw [← Option.some.inj hstep]
            exact .pass (hpc ▸ .work (by simp) (by simp [Phase.beforeEnd]))
              ⟨⟨_, rfl⟩, ⟨rfl, rfl, rfl⟩, rfl, rfl, rfl, rfl, rfl, rfl,
                fun h => absurd hpc (h job index), .inl rfl⟩
          · rw [← Option.some.inj hstep]
            exact .pass (hpc ▸ .work (by simp) (by simp [Phase.beforeEnd]))
              (passes_moveTo s thread _)
      | returned =>
          simp only [workerStep, hpc, Option.some.injEq] at hstep
          exact hstep ▸ .pass (hpc ▸ .report) (passes_moveTo s thread _)

/-! ### What all turns have in common -/

omit [DecidableEq J] [DecidableEq P] in
/-- Only the worker itself moves, and it has not exited. -/
theorem WorkerTurn.worker (hturn : WorkerTurn S thread s next) :
    (s.worker thread).pc ≠ .exited ∧
      ∃ worker, next.worker = Function.update s.worker thread worker := by
  have henter := s.worker_enterTakeFirst
  cases hturn with
  | pass hnext hpasses =>
      obtain ⟨activations, hworker⟩ := hpasses.worker
      refine ⟨fun hexited => ?_, _, hworker⟩
      rw [hexited] at hnext
      cases hnext
  | again hpc | wait hpc | drop hpc =>
      exact ⟨by simp [hpc], _, congrArg (Function.update · thread _) (henter _)⟩
  | expire hpc =>
      exact ⟨by simp [hpc], ⟨.exited, 0⟩, congrArg (Function.update · thread _) (henter _)⟩
  | @assign wasBusy job _ _ hpc =>
      refine ⟨by simp [hpc], ⟨.busy job .assigned, 0⟩, ?_⟩
      show Function.update (s.enterTakeFirst wasBusy).worker _ _ = _
      rw [henter]
  | @suspend wasBusy hpc =>
      have hworker := ((s.enterTakeFirst wasBusy).worker_setStateP .suspended rfl).trans
        (henter wasBusy)
      exact ⟨by simp [hpc], _, congrArg (Function.update · thread _) hworker⟩

omit [DecidableEq J] [DecidableEq P] in
theorem WorkerTurn.sublist (hturn : WorkerTurn S thread s next) :
    next.assignments.Sublist s.assignments := by
  cases hturn with
  | pass _ hpasses => rw [hpasses.assignments]
  | again | expire | drop =>
      show (State.enterTakeFirst _ s).assignments.Sublist _
      rw [State.assignments_enterTakeFirst]
  | assign _ _ _ _ hscan =>
      obtain ⟨front, back, hlist, rfl⟩ := State.scan_eq_some_split hscan
      rw [hlist]
      exact (List.sublist_cons_self _ _).append_left front
  | wait _ _ _ _ hscan => exact (State.scan_eq_none_rest hscan) ▸ .refl _
  | suspend =>
      show ((State.enterTakeFirst _ s).setStateP .suspended).assignments.Sublist _
      rw [State.assignments_setStateP, State.assignments_enterTakeFirst]

/-- The worker leaves the inventory, which has outgrown its maximum. -/
structure Expires (thread : ℕ) (next s : State J P T σ ε) : Prop where
  workingHard : s.stateId = .workingHard
  outgrown : s.inventoryMax < s.inventory.length
  inventory : next.inventory = s.inventory.filter (· ≠ thread)
  inventoryMax : next.inventoryMax = s.inventoryMax
  createdThreads : next.createdThreads = s.createdThreads
  gone : next.gone.Perm (thread :: s.gone)
  exited : (next.worker thread).pc = .exited

omit [DecidableEq J] [DecidableEq P] in
/-- The threads that have expired are deleted as the worker enters the section. -/
private theorem gone_enterTakeFirst {wasBusy : Bool} (hexpired : next.expiredThreads = [])
    (hdeleted : next.deletedThreads = (s.enterTakeFirst wasBusy).deletedThreads) :
    next.gone.Perm s.gone := by
  rw [State.gone, hexpired, hdeleted, State.deletedThreads_enterTakeFirst, List.nil_append]
  exact List.perm_append_comm

omit [DecidableEq J] [DecidableEq P] in
/-- A worker leaves the inventory when that has outgrown its maximum; otherwise it may add
threads. -/
theorem WorkerTurn.crew (hturn : WorkerTurn S thread s next) :
    Expires thread next s ∨ ∃ k, State.Hires k next s ∧ next.gone.Perm s.gone := by
  cases hturn with
  | pass _ hpasses =>
      refine .inr ⟨0, ⟨by simp [hpasses.crew.1], hpasses.crew.2.2, hpasses.crew.2.1,
        Nat.zero_le _⟩, ?_⟩
      have hdeleted : next.deletedThreads = s.deletedThreads := by
        rcases hpasses.log with hlog | ⟨job, status, hlog⟩
        · rw [State.deletedThreads, hlog, State.deletedThreads]
        · exact State.deletedThreads_eq hlog (by simp [Event.deletedThread?])
      rw [State.gone, hpasses.expiredThreads, hdeleted, State.gone]
  | @again wasBusy | @wait wasBusy | @drop wasBusy =>
      have hhires := s.hires_enterTakeFirst wasBusy
      exact .inr ⟨_, ⟨hhires.inventory, hhires.createdThreads, hhires.inventoryMax,
        hhires.hasRoom⟩, gone_enterTakeFirst (State.expiredThreads_enterTakeFirst s wasBusy) rfl⟩
  | @assign wasBusy job rest state =>
      have hhires := s.hires_enterTakeFirst wasBusy
      generalize hafter : State.record (.assigned thread job)
        { s.enterTakeFirst wasBusy with assignments := rest, policyState := state } = after
      have hdeleted : (after.adjustActiveThreadCount 1).deletedThreads =
          (s.enterTakeFirst wasBusy).deletedThreads := by
        rw [State.adjustActiveThreadCount_eq, ← hafter]
        refine State.deletedThreads_eq (List.append_assoc _ _ _) fun event hevent => ?_
        rw [List.singleton_append, List.mem_cons] at hevent
        rcases hevent with rfl | hevent
        · rfl
        · split at hevent
          · rw [List.mem_singleton.mp hevent]
            rfl
          · cases hevent
      have hexpired := State.expiredThreads_enterTakeFirst s wasBusy
      subst hafter
      exact .inr ⟨_, ⟨hhires.inventory, hhires.createdThreads, hhires.inventoryMax,
        hhires.hasRoom⟩, gone_enterTakeFirst hexpired hdeleted⟩
  | @suspend wasBusy =>
      have hhires := s.hires_enterTakeFirst wasBusy
      refine .inr ⟨_, ⟨(State.inventory_setStateP _ _).trans hhires.inventory,
        (State.createdThreads_setStateP _ _).trans hhires.createdThreads,
        (State.inventoryMax_setStateP _ _).trans hhires.inventoryMax, hhires.hasRoom⟩,
        gone_enterTakeFirst ((State.expiredThreads_setStateP _ _).trans
          (State.expiredThreads_enterTakeFirst s wasBusy)) (State.deletedThreads_setStateP _ _)⟩
  | @expire wasBusy _ _ hworking hfull =>
      -- where there was room for a new thread the inventory has not outgrown its maximum
      have hhires := s.hires_enterTakeFirst wasBusy
      have hzero : s.room 1 = 0 := by
        rcases hhires.length_le with hzero | hlength
        · exact hzero
        · rw [hhires.inventoryMax] at hlength
          omega
      have hsame : (s.enterTakeFirst wasBusy).inventory = s.inventory := by
        rw [hhires.inventory, hzero]
        simp
      have hcreated : (s.enterTakeFirst wasBusy).createdThreads = s.createdThreads := by
        rw [hhires.createdThreads, hzero, Nat.add_zero]
      refine .inl ⟨hworking, hsame ▸ hfull, ?_, hhires.inventoryMax, hcreated, ?_,
        State.pc_returnTo ..⟩
      · show (s.enterTakeFirst wasBusy).inventory.filter _ = _
        rw [hsame]
      · show (thread :: (s.enterTakeFirst wasBusy).deletedThreads).Perm _
        rw [State.deletedThreads_enterTakeFirst]
        exact List.perm_append_comm.cons thread

end Turn

/-! ## Steps -/

section Step

variable [DecidableEq J] [DecidableEq P] [DecidableEq T] {S : Setup J P σ ε}
  {s next : State J P T σ ε} {action : Act J P T ε}

/-- The caller and the position to which it gets when it begins a call. -/
def Act.begins (s : State J P T σ ε) : Act J P T ε → Option (T × CallerPc)
  | .suspend caller =>
      some (caller, if s.stateId = .workingHard then .setState .suspending else .idle)
  | .resume caller =>
      some (caller, if s.stateId = .suspending ∨ s.stateId = .suspended then
        .setState .workingHard else .idle)
  | .finish caller => some (caller, if s.stateId = .destructed then .idle else .finish)
  | .shutDown caller =>
      some (caller, if s.stateId = .shuttingDown ∨ s.stateId = .destructed then .idle
        else .shutDown .acquire)
  | .configure caller _ => some (caller, .reschedule)
  | _ => none

omit [DecidableEq J] [DecidableEq P] [DecidableEq T] in
/-- Where a caller can get when it begins a call. -/
theorem Act.begins_pc {caller : T} {pc : CallerPc} (h : action.begins s = some (caller, pc)) :
    pc = .idle ∨ pc = .finish ∨ pc = .reschedule ∨
      pc = .setState .suspending ∧ s.stateId = .workingHard ∨
      pc = .setState .workingHard ∧ (s.stateId = .suspending ∨ s.stateId = .suspended) ∨
      pc = .shutDown .acquire ∧ action = .shutDown caller ∧
        ¬ (s.stateId = .shuttingDown ∨ s.stateId = .destructed) := by
  cases action with
  | suspend other =>
      obtain ⟨rfl, rfl⟩ := Prod.mk.inj (Option.some.inj h)
      split
      · rename_i hid
        exact .inr (.inr (.inr (.inl ⟨rfl, hid⟩)))
      · exact .inl rfl
  | resume other =>
      obtain ⟨rfl, rfl⟩ := Prod.mk.inj (Option.some.inj h)
      split
      · rename_i hid
        exact .inr (.inr (.inr (.inr (.inl ⟨rfl, hid⟩))))
      · exact .inl rfl
  | finish other =>
      obtain ⟨rfl, rfl⟩ := Prod.mk.inj (Option.some.inj h)
      split
      · exact .inl rfl
      · exact .inr (.inl rfl)
  | shutDown other =>
      obtain ⟨rfl, rfl⟩ := Prod.mk.inj (Option.some.inj h)
      split
      · exact .inl rfl
      · rename_i hid
        exact .inr (.inr (.inr (.inr (.inr ⟨rfl, rfl, hid⟩))))
  | configure other ops =>
      obtain ⟨rfl, rfl⟩ := Prod.mk.inj (Option.some.inj h)
      exact .inr (.inr (.inl rfl))
  | enqueue _ | dequeue _ | dequeueAll | setMaximumNumberOfThreads _ | requestAbort | reschedule
  | configureFromJob _ _ | proceed _ | timeout _ | worker _ => cases h

/-- What the beginning of a call does: the caller gets to `pc`, and it may have changed
policies. -/
structure Begins (caller : T) (pc : CallerPc) (next s : State J P T σ ε) : Prop where
  idle : s.caller caller = .idle
  caller : next.caller = Function.update s.caller caller pc
  worker : next.worker = s.worker
  crew : next.inventory = s.inventory ∧ next.inventoryMax = s.inventoryMax ∧
    next.createdThreads = s.createdThreads
  active : next.active = s.active
  expiredThreads : next.expiredThreads = s.expiredThreads
  stateId : next.stateId = s.stateId
  assignments : next.assignments = s.assignments
  policies : pc ≠ .reschedule →
    next.queuePolicies = s.queuePolicies ∧ next.policyState = s.policyState
  log : next.log = s.log ∨ ∃ ops, next.log = s.log ++ [.configured ops]

/-- What a step can do. -/
inductive Turn (S : Setup J P σ ε) (s : State J P T σ ε) : Act J P T ε → State J P T σ ε → Prop
  | enqueue (jobs : List (Option J)) : s.stateId ≠ .destructed →
      Turn S s (.enqueue jobs) (s.enqueueP S jobs)
  /-- any other call in one section, or one that is ignored -/
  | call {action : Act J P T ε} {next : State J P T σ ε} : State.QueueCall 0 next s →
      next.assignments.Sublist s.assignments →
      (action.ops? = none →
        next.queuePolicies = s.queuePolicies ∧ next.policyState = s.policyState) →
      Turn S s action next
  | resize (cap : ℕ) : s.stateId ≠ .destructed →
      Turn S s (.setMaximumNumberOfThreads cap) (s.setMaximumNumberOfThreadsP cap)
  | begin {action : Act J P T ε} {caller : T} {pc : CallerPc} {next : State J P T σ ε} :
      action.begins s = some (caller, pc) → Begins caller pc next s → Turn S s action next
  | setState {caller : T} {id : StateId} : s.caller caller = .setState id →
      Turn S s (.proceed caller) ((s.setCaller caller .idle).setStateP id)
  | reschedule {caller : T} : s.caller caller = .reschedule →
      Turn S s (.proceed caller) (s.setCaller caller .idle).reschedule
  | finish {caller : T} : s.caller caller = .finish → s.isIdleP →
      Turn S s (.proceed caller) (s.setCaller caller .idle)
  | shutDown {caller : T} {rest : ShutDownPc} {next : State J P T σ ε} :
      s.caller caller = .shutDown rest → shutDownStep caller s rest = some next →
      Turn S s (.proceed caller) next
  | worker {thread : ℕ} {next : State J P T σ ε} : thread < s.createdThreads →
      WorkerTurn S thread s next → Turn S s (.worker thread) next

omit [DecidableEq P] in
/-- A call that is ignored in the destructed weaver. -/
private theorem turn_unlessDestructed {f : State J P T σ ε → State J P T σ ε}
    (h : s.stateId ≠ .destructed → Turn S s action (f s)) :
    Turn S s action (unlessDestructed f s) := by
  unfold unlessDestructed
  split
  · exact .call (State.QueueCall.refl s) (.refl _) fun _ => ⟨rfl, rfl⟩
  · rename_i hid
    exact h hid

omit [DecidableEq J] [DecidableEq P] in
private theorem begins_beginCall {caller : T} {pc : CallerPc}
    (hstep : beginCall caller pc s = some next) : Begins caller pc next s := by
  unfold beginCall at hstep
  split at hstep
  · rename_i hidle
    rw [← Option.some.inj hstep]
    exact ⟨hidle, rfl, rfl, ⟨rfl, rfl, rfl⟩, rfl, rfl, rfl, rfl, fun _ => ⟨rfl, rfl⟩, .inl rfl⟩
  · cases hstep

/-- **Every step is one of the turns.** -/
theorem step_turn (hstep : step S s action = some next) : Turn S s action next := by
  have hwake : State.QueueCall 0 s.reschedule s := s.queueCall_reschedule
  cases action with
  | enqueue jobs =>
      rw [← Option.some.inj hstep]
      exact turn_unlessDestructed fun hid => .enqueue jobs hid
  | dequeue job =>
      rw [← Option.some.inj hstep, State.dequeue_snd]
      have hdequeued := s.dequeues_dequeueP S job
      exact turn_unlessDestructed fun _ =>
        .call hdequeued.call hdequeued.sublist fun _ => hdequeued.policies
  | dequeueAll =>
      rw [← Option.some.inj hstep]
      have hdequeued := s.dequeues_dequeueAllP S
      exact turn_unlessDestructed fun _ =>
        .call hdequeued.call hdequeued.sublist fun _ => hdequeued.policies
  | setMaximumNumberOfThreads cap =>
      rw [← Option.some.inj hstep]
      exact turn_unlessDestructed fun hid => .resize cap hid
  | requestAbort =>
      rw [← Option.some.inj hstep]
      refine turn_unlessDestructed fun _ => .call ?_ (.refl _) fun _ => ⟨rfl, rfl⟩
      exact ⟨⟨by simp [State.requestAbortP], rfl, rfl, Nat.zero_le _⟩, .inl rfl, rfl, rfl, rfl,
        rfl, [], by simp [State.requestAbortP], by simp⟩
  | reschedule =>
      rw [← Option.some.inj hstep]
      exact .call hwake (.refl _) fun _ => ⟨rfl, rfl⟩
  | suspend caller | resume caller | finish caller | shutDown caller =>
      exact .begin rfl (begins_beginCall hstep)
  | configure caller ops =>
      obtain ⟨begun, hbegun, rfl⟩ := Option.map_eq_some_iff.mp hstep
      have hbegins := begins_beginCall hbegun
      refine .begin rfl ⟨hbegins.idle, hbegins.caller, hbegins.worker, hbegins.crew,
        hbegins.active, hbegins.expiredThreads, hbegins.stateId, hbegins.assignments,
        fun h => absurd rfl h, .inr ⟨ops, ?_⟩⟩
      have hlog : begun.log = s.log := congrArg Ledger.log (ledger_beginCall hbegun)
      rw [← hlog]
      rfl
  | configureFromJob thread ops =>
      simp only [step, Option.ite_none_right_eq_some, Option.some.injEq] at hstep
      rw [← hstep.2]
      refine .call ?_ (.refl _) fun h => by cases h
      exact ⟨⟨by simp [State.configure], rfl, rfl, Nat.zero_le _⟩, .inl rfl, rfl, rfl, rfl, rfl,
        [.configured ops], rfl, by simp [Event.ofCall]⟩
  | proceed caller =>
      simp only [step, callerStep] at hstep
      split at hstep
      · cases hstep
      · rename_i id hcaller
        rw [← Option.some.inj hstep]
        exact .setState hcaller
      · rename_i hcaller
        rw [← Option.some.inj hstep]
        exact .reschedule hcaller
      · rename_i hcaller
        rw [Option.ite_none_right_eq_some] at hstep
        rw [← Option.some.inj hstep.2]
        exact .finish hcaller hstep.1
      · rename_i rest hcaller
        exact .shutDown hcaller hstep
  | timeout caller =>
      simp only [step, Option.ite_none_right_eq_some, Option.some.injEq] at hstep
      rw [← hstep.2]
      exact .call hwake (.refl _) fun _ => ⟨rfl, rfl⟩
  | worker thread =>
      simp only [step, Option.ite_none_right_eq_some] at hstep
      exact .worker hstep.1 (workerStep_turn hstep.2)

/-! ## Events -/

/-- The event happened in the step from `s` to `next`. -/
def State.Emits (s next : State J P T σ ε) (event : Event J P ε) : Prop :=
  ∃ events, next.log = s.log ++ events ∧ event ∈ events

/-- In which steps events of the threads happen. -/
def Justified (s next : State J P T σ ε) : Event J P ε → Prop
  | .assigned _ _ => s.stateId = .workingHard ∧ s.inventory.length ≤ s.inventoryMax
  | .suspended => s.stateId = .suspending ∧ next.active = 0
  | .stateChanged id => next.stateId = id
  | .enqueued _ | .dequeued _ | .ended _ _ | .configured _ | .finished | .deleted _ => True

omit [DecidableEq J] [DecidableEq P] [DecidableEq T] in
private theorem justified_of_ofCall {event : Event J P ε} (h : Event.ofCall event) :
    Justified s next event := by
  cases event with
  | enqueued _ | dequeued _ | configured _ => trivial
  | assigned _ _ | ended _ _ | finished | suspended | stateChanged _ | deleted _ => cases h

omit [DecidableEq J] [DecidableEq P] [DecidableEq T] in
/-- The events of a change of the state object. -/
theorem State.log_setStateP (s : State J P T σ ε) (id : StateId) :
    (s.setStateP id).log = s.log ∨
      (s.setStateP id).log = s.log ++ (if id = .suspended then [.suspended] else []) ++
        [.stateChanged id] := by
  rw [State.setStateP_eq]
  split
  · exact .inl rfl
  · exact .inr rfl

omit [DecidableEq J] [DecidableEq P] [DecidableEq T] in
private theorem justified_setStateP {before : State J P T σ ε} {id : StateId}
    (hid : id ≠ .suspended) (hlog : before.log = s.log) :
    ∃ events, (before.setStateP id).log = s.log ++ events ∧
      ∀ event ∈ events, Justified s (before.setStateP id) event := by
  rcases before.log_setStateP id with hsame | hmore
  · exact ⟨[], by simp [hsame, hlog], by simp⟩
  · refine ⟨[.stateChanged id], by simp [hmore, hlog, hid], ?_⟩
    simp [Justified]

omit [DecidableEq J] [DecidableEq P] [DecidableEq T] in
/-- The worker enters the section, and nothing but `more` happens after that. -/
private theorem events_enterTakeFirst (wasBusy : Bool) (more : List (Event J P ε))
    (hlog : next.log = (s.enterTakeFirst wasBusy).log ++ more)
    (hmore : ∀ event ∈ more, event.ofCall = false ∧ Justified s next event) :
    ∃ events, next.log = s.log ++ events ∧
      ∀ event ∈ events, event.ofCall = false ∧ Justified s next event := by
  obtain ⟨idle, hidle, hentered⟩ := s.log_enterTakeFirst wasBusy
  refine ⟨s.expiredThreads.map .deleted ++ idle ++ more, by simp [hlog, hentered], ?_⟩
  intro event hevent
  rw [List.mem_append, List.mem_append, List.mem_map] at hevent
  rcases hevent with (⟨thread, _, rfl⟩ | hevent) | hevent
  · exact ⟨rfl, trivial⟩
  · rw [hidle event hevent]
    exact ⟨rfl, trivial⟩
  · exact hmore event hevent

omit [DecidableEq J] [DecidableEq P] [DecidableEq T] in
/-- The events of a step of a worker. -/
theorem WorkerTurn.events {thread : ℕ} (hturn : WorkerTurn S thread s next) :
    ∃ events, next.log = s.log ++ events ∧
      ∀ event ∈ events, event.ofCall = false ∧ Justified s next event := by
  cases hturn with
  | pass _ hpasses =>
      rcases hpasses.log with hlog | ⟨job, status, hlog⟩
      · exact ⟨[], by simp [hlog], by simp⟩
      · exact ⟨[.ended job status], hlog, by simp [Justified, Event.ofCall]⟩
  | again | expire | wait | drop =>
      exact events_enterTakeFirst _ [] (List.append_nil _).symm (by simp)
  | @assign wasBusy job rest state _ _ hworking hroom _ =>
      have hlength : s.inventory.length ≤ s.inventoryMax := by
        have hhires := s.hires_enterTakeFirst wasBusy
        rw [hhires.inventory, List.length_append] at hroom
        omega
      generalize hafter : State.record (.assigned thread job)
        { s.enterTakeFirst wasBusy with assignments := rest, policyState := state } = after
      have hlog : after.log = (s.enterTakeFirst wasBusy).log ++ [.assigned thread job] := by
        rw [← hafter]
        rfl
      refine events_enterTakeFirst wasBusy (.assigned thread job ::
        if after.assignments.isEmpty ∧ after.active + 1 = 0 then [.finished] else []) ?_ ?_
      · rw [State.adjustActiveThreadCount_eq]
        simp only [State.returnTo, hlog, List.append_assoc, List.singleton_append]
      · intro event hevent
        rcases List.mem_cons.mp hevent with rfl | hevent
        · exact ⟨rfl, hworking, hlength⟩
        · split at hevent
          · rw [List.mem_singleton.mp hevent]
            exact ⟨rfl, trivial⟩
          · cases hevent
  | @suspend wasBusy _ _ hsuspending hzero =>
      have hid : (s.enterTakeFirst wasBusy).stateId ≠ .suspended := by
        rw [State.stateId_enterTakeFirst, hsuspending]
        simp
      refine events_enterTakeFirst wasBusy [.suspended, .stateChanged .suspended] ?_ ?_
      · rw [State.setStateP_eq, if_neg hid]
        simp [State.moveTo]
      · have hactive := (State.active_setStateP (s.enterTakeFirst wasBusy) .suspended).trans hzero
        intro event hevent
        rcases List.mem_pair.mp hevent with rfl | rfl
        · exact ⟨rfl, hsuspending, hactive⟩
        · exact ⟨rfl, State.stateId_setStateP _ _⟩

/-- **In which steps the events of the threads happen.** -/
theorem step_justified (hstep : step S s action = some next)
    (hrequests : ∀ caller id, s.caller caller = .setState id → id ≠ .suspended) :
    ∃ events, next.log = s.log ++ events ∧ ∀ event ∈ events, Justified s next event := by
  have hnone : next.log = s.log →
      ∃ events, next.log = s.log ++ events ∧ ∀ event ∈ events, Justified s next event :=
    fun h => ⟨[], by simp [h], by simp⟩
  have hcalled : ∀ {k before}, State.QueueCall k next before → before.log = s.log →
      ∃ events, next.log = s.log ++ events ∧ ∀ event ∈ events, Justified s next event := by
    intro k before hcall hlog
    obtain ⟨events, hevents, hof⟩ := hcall.log
    exact ⟨events, by rw [hevents, hlog], fun event h => justified_of_ofCall (hof event h)⟩
  cases step_turn hstep with
  | enqueue jobs _ =>
      obtain ⟨k, hcall⟩ := s.queueCall_enqueueP S jobs
      exact hcalled hcall rfl
  | call hcall _ _ => exact hcalled hcall rfl
  | resize cap _ =>
      obtain ⟨k, hcall, -⟩ := s.queueCall_setMaximumNumberOfThreadsP cap
      exact hcalled hcall rfl
  | begin _ hbegun =>
      rcases hbegun.log with hlog | ⟨ops, hlog⟩
      · exact hnone hlog
      · exact ⟨[.configured ops], hlog, by simp [Justified]⟩
  | setState hcaller => exact justified_setStateP (hrequests _ _ hcaller) rfl
  | reschedule _ => exact hnone rfl
  | finish _ _ => exact hnone rfl
  | @shutDown caller rest _ _ hstep =>
      cases rest with
      | acquire | finish =>
          simp only [shutDownStep, Option.ite_none_right_eq_some, Option.some.injEq] at hstep
          exact hnone (hstep.2 ▸ rfl)
      | suspend | reschedule => exact hnone (Option.some.inj hstep ▸ rfl)
      | setSuspending | setShuttingDown | setDestructed =>
          rw [← Option.some.inj hstep]
          exact justified_setStateP (by simp) rfl
      | collect =>
          simp only [shutDownStep] at hstep
          split at hstep
          · exact hnone (Option.some.inj hstep ▸ rfl)
          · exact hnone (Option.some.inj hstep ▸ rfl)
      | join thread =>
          simp only [shutDownStep] at hstep
          split at hstep
          · rw [← Option.some.inj hstep]
            exact ⟨[.deleted thread], rfl, by simp [Justified]⟩
          · exact hnone (Option.some.inj hstep ▸ rfl)
  | worker _ hturn =>
      obtain ⟨events, hlog, hevents⟩ := hturn.events
      exact ⟨events, hlog, fun event hevent => (hevents event hevent).2⟩

end Step

end ThreadWeaver.Weaver
