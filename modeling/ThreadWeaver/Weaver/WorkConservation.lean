import ThreadWeaver.ResourceRestrictionPolicy
import ThreadWeaver.Weaver.Active
import ThreadWeaver.Weaver.DependencySafety
import ThreadWeaver.Weaver.Suspend

/-!
# Work conservation

A worker that has ended its job takes one job and wakes nobody for the others it has made
runnable.  So as long as workers wait, somebody has to be on the way to the list whenever there
is a job in it that could run: a worker that will apply for work, or a thread that will call
`reschedule`.  That fails exactly when the last of them takes a job and leaves another one
behind.
-/

namespace ThreadWeaver.Weaver

variable {J P T σ ε : Type*}

/-- The steps of programs that do not suspend, shut down or resize the weaver, and that change
policies from outside only, before a `reschedule`. -/
def Act.worksOn : Act J P T ε → Bool
  | .suspend _ | .resume _ | .shutDown _ | .setMaximumNumberOfThreads _
  | .configureFromJob _ _ => false
  | .enqueue _ | .dequeue _ | .dequeueAll | .requestAbort | .reschedule | .finish _
  | .configure _ _ | .proceed _ | .timeout _ | .worker _ => true

/-- The worker will look at the list before it waits. -/
def WorkerPc.isComing : WorkerPc J → Bool
  | started | applyForWork _ | dispatched _ _ | woken _ => true
  | busy _ phase => !phase.beforeEnd
  | waitForAvailableJob _ | blockThread _ | waiting _ | exited => false

/-- Where workers are while the weaver is working. -/
def WorkerPc.isAtWork : WorkerPc J → Bool
  | started | applyForWork _ | waiting _ | woken _ | busy _ _ => true
  | dispatched id _ => id = .workingHard
  | waitForAvailableJob _ | blockThread _ | exited => false

/-- The worker is about to look at the list. -/
def WorkerPc.isAtList : WorkerPc J → Bool
  | dispatched id _ => id = .workingHard
  | _ => false

namespace State

variable {s next : State J P T σ ε}

/-- Some worker waits. -/
def SomeWaits (s : State J P T σ ε) : Prop :=
  ∃ thread < s.createdThreads, (s.worker thread).pc.isWaiting

/-- Workers wait while this one, which looks at the list, is the only one on the way to it: there
is no room for a new thread, and no caller is about to call `reschedule`. -/
structure LooksAlone (s : State J P T σ ε) (thread : ℕ) : Prop where
  atList : (s.worker thread).pc.isAtList
  waits : s.SomeWaits
  full : s.inventoryMax ≤ s.inventory.length
  alone : ∀ other < s.createdThreads, other ≠ thread → (s.worker other).pc.isComing = false
  quiet : ∀ caller, s.caller caller ≠ .reschedule

/-- The scan takes no job, or none that stays behind could be executed beside it. -/
def LeavesNone (S : Setup J P σ ε) (s : State J P T σ ε) : Prop :=
  ∀ job ∈ (State.scan S s.queuePolicies s.assignments s.policyState).1,
    ∀ candidate ∈ (State.scan S s.queuePolicies s.assignments s.policyState).2.1,
      ¬ S.policies.Accepts (s.queuePolicies candidate) candidate
        (State.scan S s.queuePolicies s.assignments s.policyState).2.2

/-- No caller is in an operation, and every worker executes a job or waits. -/
structure Settled (s : State J P T σ ε) : Prop where
  idle : ∀ caller, s.caller caller = .idle
  workers : ∀ thread < s.createdThreads,
    (s.worker thread).pc.isWaiting ∨ (s.worker thread).pc.job?.isSome

end State

/-- The step is one of such programs, and a worker that looks at the list alone leaves no job
behind that could be executed. -/
def ScansLeaveNone (S : Setup J P σ ε) (s : State J P T σ ε) (action : Act J P T ε) : Prop :=
  action.worksOn ∧
    ∀ thread < s.createdThreads, action = .worker thread → s.LooksAlone thread → s.LeavesNone S

/-- The weaver is working, and somebody is on the way to the list unless nobody waits or no job
in it can be executed. -/
structure State.Working (S : Setup J P σ ε) (s : State J P T σ ε) : Prop where
  workingHard : s.stateId = .workingHard
  staffed : s.Staffed
  unborn : ∀ thread, s.createdThreads ≤ thread → (s.worker thread).pc = .started
  atWork : ∀ thread, (s.worker thread).pc.isAtWork
  requests : ∀ caller, s.caller caller = .idle ∨ s.caller caller = .reschedule ∨
    s.caller caller = .finish
  attended : s.SomeWaits →
    (∃ thread < s.createdThreads, (s.worker thread).pc.isComing) ∨
      (∃ caller, s.caller caller = .reschedule) ∨ ∀ job ∈ s.assignments, ¬ s.Accepts S job

theorem WorkerPc.waits_or_works {pc : WorkerPc J} (hpc : pc.isAtWork)
    (hcoming : pc.isComing = false) : pc.isWaiting ∨ pc.job?.isSome := by
  cases pc with
  | waiting _ => exact .inl rfl
  | busy job phase =>
      simp only [isComing, Bool.not_eq_false'] at hcoming
      exact .inr (by simp [job?, hcoming])
  | started | applyForWork _ | dispatched _ _ | woken _ => cases hcoming
  | waitForAvailableJob _ | blockThread _ | exited => cases hpc

/-! ## Waking and hiring -/

@[simp] theorem Worker.isAtWork_wake (worker : Worker J) :
    worker.wake.pc.isAtWork = worker.pc.isAtWork := by
  obtain ⟨pc, activations⟩ := worker
  cases pc <;> rfl

namespace State

variable {s next : State J P T σ ε}

theorem Staffed.of_hires (h : s.Staffed) {k : ℕ} (hhires : Hires k next s) : next.Staffed where
  length_le := by
    have hold := h.length_le
    rcases hhires.length_le with rfl | hle
    · rw [hhires.inventory, hhires.inventoryMax]
      simpa using hold
    · exact hle
  mem_inventory thread hthread := by
    rw [hhires.createdThreads] at hthread
    rw [hhires.inventory, List.mem_append, List.mem_range'_1]
    by_cases hold : thread < s.createdThreads
    · exact .inl (h.mem_inventory thread hold)
    · exact .inr ⟨by omega, hthread⟩

theorem WakesFrom.worker_eq (h : next.WakesFrom s) (hwaits : next.SomeWaits) :
    next.worker = s.worker := by
  rcases h with hsame | hwoken
  · exact hsame
  · obtain ⟨thread, _, hwaits⟩ := hwaits
    rw [hwoken] at hwaits
    cases hpc : (s.worker thread).pc <;> simp [Worker.wake, hpc, WorkerPc.isWaiting] at hwaits

variable {S : Setup J P σ ε}

/-- A call to the queue that wakes the workers, or changes nothing that lets jobs run. -/
theorem Working.queueCall (h : s.Working S) {k : ℕ} (hcall : QueueCall k next s)
    (hsame : next.SomeWaits → k = 0 ∧ ∀ job ∈ next.assignments, next.Accepts S job →
      job ∈ s.assignments ∧ s.Accepts S job) : next.Working S where
  workingHard := hcall.stateId.trans h.workingHard
  staffed := h.staffed.of_hires hcall.hires
  unborn thread hthread := by
    have hstarted := h.unborn thread (by rw [hcall.hires.createdThreads] at hthread; omega)
    rcases hcall.wakes with hworker | hworker
    · rw [hworker, hstarted]
    · rw [hworker, Worker.started_wake, hstarted]
  atWork thread := by
    rcases hcall.wakes with hworker | hworker
    · rw [hworker]
      exact h.atWork thread
    · rw [hworker, Worker.isAtWork_wake]
      exact h.atWork thread
  requests := hcall.caller ▸ h.requests
  attended hwaits := by
    obtain ⟨rfl, haccepts⟩ := hsame hwaits
    have hworker := hcall.wakes.worker_eq hwaits
    have hcreated : next.createdThreads = s.createdThreads := hcall.hires.createdThreads
    simp only [SomeWaits, hworker, hcreated, hcall.caller] at hwaits ⊢
    refine (h.attended hwaits).imp_right (.imp_right fun hrefused job hjob hyes => ?_)
    obtain ⟨hmem, hyes⟩ := haccepts job hjob hyes
    exact hrefused job hmem hyes

theorem AllAwake.not_someWaits (h : s.AllAwake) : ¬ s.SomeWaits := by
  rintro ⟨thread, _, hwaits⟩
  rw [h thread] at hwaits
  cases hwaits

/-- A caller moves that nobody waits for to call `reschedule`, and policies change only when it
has to call `reschedule` for them. -/
theorem Working.update_caller [DecidableEq T] (h : s.Working S) {caller : T} {pc : CallerPc}
    (hpc : pc = .idle ∨ pc = .reschedule ∨ pc = .finish)
    (hbefore : s.SomeWaits → s.caller caller ≠ .reschedule)
    (hcaller : next.caller = Function.update s.caller caller pc) (hworker : next.worker = s.worker)
    (hcrew : next.inventory = s.inventory ∧ next.inventoryMax = s.inventoryMax ∧
      next.createdThreads = s.createdThreads) (hid : next.stateId = s.stateId)
    (hassignments : next.assignments = s.assignments)
    (hpolicies : pc ≠ .reschedule →
      next.queuePolicies = s.queuePolicies ∧ next.policyState = s.policyState) :
    next.Working S where
  workingHard := hid.trans h.workingHard
  staffed := h.staffed.of_hires
    (k := 0) ⟨by simp [hcrew.1], hcrew.2.2, hcrew.2.1, Nat.zero_le _⟩
  unborn := by
    rw [hcrew.2.2, hworker]
    exact h.unborn
  atWork := hworker ▸ h.atWork
  requests other := by
    rw [hcaller, Function.update_apply]
    split
    · exact hpc
    · exact h.requests other
  attended hwaits := by
    have hwaits : s.SomeWaits := by
      rwa [SomeWaits, hworker, hcrew.2.2] at hwaits
    by_cases hchanges : pc = .reschedule
    · exact .inr (.inl ⟨caller, by rw [hcaller, Function.update_self, hchanges]⟩)
    · rcases h.attended hwaits with hcoming | ⟨other, hother⟩ | hrefused
      · rw [hworker, hcrew.2.2]
        exact .inl hcoming
      · have hne : other ≠ caller := by
          rintro rfl
          exact hbefore hwaits hother
        exact .inr (.inl ⟨other, by rw [hcaller, Function.update_of_ne hne, hother]⟩)
      · obtain ⟨hqueue, hstate⟩ := hpolicies hchanges
        simp only [Accepts, hassignments, hqueue, hstate]
        exact .inr (.inr hrefused)

end State

/-! ## Workers -/

theorem WorkerPc.Next.stays {pc later : WorkerPc J} (h : WorkerPc.Next .workingHard pc later)
    (hpc : pc.isAtWork) :
    later.isAtWork ∧ later.isWaiting = false ∧ (pc.isComing → later.isComing) := by
  cases h with
  | enter | dispatch _ | wake _ | report => simp [isAtWork, isWaiting, isComing]
  | rest _ hof => rcases hof with rfl | rfl <;> cases hpc
  | leave _ hof => rcases hof with rfl | rfl <;> cases hpc
  | skip _ _ | block _ _ | wait _ => cases hpc
  | @work job phase later _ hbefore =>
      refine ⟨rfl, rfl, fun hcoming => ?_⟩
      simp only [isComing, Bool.not_eq_true'] at hcoming ⊢
      exact Bool.eq_false_iff.mpr fun hlater => by simp [hbefore hlater] at hcoming

section Turn

variable [DecidableEq J] [DecidableEq P] {S : Setup J P σ ε} {s next : State J P T σ ε}
  {thread : ℕ}

omit [DecidableEq J] [DecidableEq P] in
private theorem someWaits_of_turn (h : s.Working S) {worker : Worker J}
    (hworker : next.worker = Function.update s.worker thread worker)
    (hpc : worker.pc.isWaiting = false) (hwaits : next.SomeWaits) :
    ∃ other < s.createdThreads, other ≠ thread ∧ (s.worker other).pc.isWaiting := by
  obtain ⟨other, _, hother⟩ := hwaits
  have hne : other ≠ thread := by
    rintro rfl
    rw [hworker, Function.update_self, hpc] at hother
    cases hother
  rw [hworker, Function.update_of_ne hne] at hother
  refine ⟨other, lt_of_not_ge fun hnew => ?_, hne, hother⟩
  rw [h.unborn other hnew] at hother
  cases hother

omit [DecidableEq J] [DecidableEq P] in
private theorem Working.of_turn (h : s.Working S) (hthread : thread < s.createdThreads)
    {k : ℕ} (hhires : State.Hires k next s) {worker : Worker J}
    (hworker : next.worker = Function.update s.worker thread worker)
    (hid : next.stateId = s.stateId) (hcaller : next.caller = s.caller)
    (hpc : worker.pc.isAtWork)
    (hattended : next.SomeWaits →
      (∃ thread < next.createdThreads, (next.worker thread).pc.isComing) ∨
        (∃ caller, next.caller caller = .reschedule) ∨
          ∀ job ∈ next.assignments, ¬ next.Accepts S job) : next.Working S where
  workingHard := hid.trans h.workingHard
  staffed := h.staffed.of_hires hhires
  unborn other hother := by
    rw [hhires.createdThreads] at hother
    rw [hworker, Function.update_of_ne (by omega)]
    exact h.unborn other (by omega)
  atWork other := by
    rw [hworker, Function.update_apply]
    split
    · exact hpc
    · exact h.atWork other
  requests := hcaller ▸ h.requests
  attended := hattended

omit [DecidableEq J] [DecidableEq P] in
private theorem State.Working.pass (h : s.Working S) (hthread : thread < s.createdThreads)
    {pc : WorkerPc J} (hnext : WorkerPc.Next s.stateId (s.worker thread).pc pc)
    (hpasses : Passes thread pc next s) : next.Working S := by
  rw [h.workingHard] at hnext
  obtain ⟨hatWork, hawake, hcoming⟩ := hnext.stays (h.atWork thread)
  obtain ⟨activations, hworker⟩ := hpasses.worker
  obtain ⟨hinventory, hmax, hcreated⟩ := hpasses.crew
  have hhires : State.Hires 0 next s := ⟨by simp [hinventory], hcreated, hmax, Nat.zero_le _⟩
  refine Working.of_turn h hthread hhires hworker hpasses.stateId hpasses.caller hatWork ?_
  intro hwaits
  obtain ⟨waiting, hold, -, hwaiting⟩ := someWaits_of_turn h hworker hawake hwaits
  -- the worker itself is on its way when it was, or when it frees policies
  have hself : (s.worker thread).pc.isComing →
      ∃ thread < next.createdThreads, (next.worker thread).pc.isComing := fun hpc =>
    ⟨thread, hcreated ▸ hthread, by rw [hworker, Function.update_self]; exact hcoming hpc⟩
  rcases h.attended ⟨waiting, hold, hwaiting⟩ with ⟨other, hother, hpc⟩ | hcaller | hrefused
  · by_cases heq : other = thread
    · exact .inl (hself (heq ▸ hpc))
    · exact .inl ⟨other, hcreated ▸ hother, by rw [hworker, Function.update_of_ne heq]; exact hpc⟩
  · exact .inr (.inl (hpasses.caller ▸ hcaller))
  · by_cases hfreeing : ∃ job index, (s.worker thread).pc = .busy job (.freeing index)
    · obtain ⟨job, index, hpc⟩ := hfreeing
      exact .inl (hself (by rw [hpc]; rfl))
    · simp only [not_exists] at hfreeing
      refine .inr (.inr fun job hjob haccepts => hrefused job (hpasses.assignments ▸ hjob) ?_)
      rw [State.Accepts, hpasses.queuePolicies, hpasses.policyState hfreeing] at haccepts
      exact haccepts

omit [DecidableEq J] [DecidableEq P] in
private theorem State.Working.assign (h : s.Working S) (hthread : thread < s.createdThreads)
    (hleaves : s.LooksAlone thread → s.LeavesNone S) {wasBusy : Bool} {job : J} {rest : List J}
    {state : σ} (hpc : (s.worker thread).pc = .dispatched .workingHard wasBusy)
    (hscan : State.scan S s.queuePolicies s.assignments s.policyState = (some job, rest, state)) :
    (State.returnTo thread (.busy job .assigned)
      (State.adjustActiveThreadCount 1 (State.record (.assigned thread job)
        { s.enterTakeFirst wasBusy with assignments := rest, policyState := state }))).Working S := by
  have hhires := s.hires_enterTakeFirst wasBusy
  obtain ⟨-, hpolicies, -⟩ := s.ledger_enterTakeFirst wasBusy
  have hworker : Function.update (s.enterTakeFirst wasBusy).worker thread
      ⟨.busy job .assigned, 0⟩ = Function.update s.worker thread ⟨.busy job .assigned, 0⟩ := by
    rw [s.worker_enterTakeFirst]
  refine Working.of_turn h hthread ⟨hhires.inventory, hhires.createdThreads, hhires.inventoryMax,
    hhires.hasRoom⟩ hworker (s.stateId_enterTakeFirst wasBusy) (s.caller_enterTakeFirst wasBusy)
    rfl fun hwaits => ?_
  obtain ⟨waiting, hold, hne, hwaiting⟩ := someWaits_of_turn h hworker rfl hwaits
  have hother : ∀ other, other ≠ thread → Function.update (s.enterTakeFirst wasBusy).worker thread
      ⟨.busy job .assigned, 0⟩ other = s.worker other := fun other hother => by
    rw [hworker, Function.update_of_ne hother]
  by_cases hfull : s.inventoryMax ≤ s.inventory.length
  · by_cases halone : ∀ other < s.createdThreads, other ≠ thread →
        (s.worker other).pc.isComing = false
    · by_cases hquiet : ∀ caller, s.caller caller ≠ .reschedule
      · -- nobody else will come, but the scan leaves nothing behind
        have hnone := hleaves ⟨by rw [hpc]; rfl, ⟨waiting, hold, hwaiting⟩, hfull, halone, hquiet⟩
          job (by rw [hscan]; rfl)
        rw [hscan] at hnone
        refine .inr (.inr fun candidate hcandidate haccepts => hnone candidate hcandidate ?_)
        rw [← hpolicies]
        exact haccepts
      · simp only [not_forall, not_not] at hquiet
        obtain ⟨caller, hcaller⟩ := hquiet
        exact .inr (.inl ⟨caller, (congrFun (s.caller_enterTakeFirst wasBusy) caller).trans hcaller⟩)
    · simp only [not_forall, Bool.not_eq_false] at halone
      obtain ⟨other, hcreated, hnot, hcoming⟩ := halone
      refine .inl ⟨other, ?_, ?_⟩
      · exact hcreated.trans_le (hhires.createdThreads ▸ Nat.le_add_right _ _)
      · exact (congrArg (·.pc.isComing) (hother other hnot)).trans hcoming
  · -- a thread has been created
    have hroom : s.room 1 = 1 := by
      unfold State.room
      omega
    have hnew : s.createdThreads ≠ thread := hthread.ne'
    have hcreated : (s.enterTakeFirst wasBusy).createdThreads = s.createdThreads + 1 := by
      rw [hhires.createdThreads, hroom]
    refine .inl ⟨s.createdThreads, ?_, ?_⟩
    · exact (Nat.lt_succ_self _).trans_eq hcreated.symm
    · refine (congrArg (·.pc.isComing) (hother _ hnew)).trans ?_
      rw [h.unborn _ le_rfl]
      rfl

omit [DecidableEq P] in
private theorem State.Working.workerStep (hcontract : State.KeepsContract S)
    (hnodup : ∀ job, (s.queuePolicies job).Nodup) (h : s.Working S)
    (hthread : thread < s.createdThreads) (hleaves : s.LooksAlone thread → s.LeavesNone S)
    (hstep : Weaver.workerStep S thread s = some next) : next.Working S := by
  cases workerStep_turn hstep with
  | pass hnext hpasses => exact h.pass hthread hnext hpasses
  | assign hpc _ _ _ hscan => exact h.assign hthread hleaves hpc hscan
  | @wait wasBusy rest state hpc =>
      have hhires := s.hires_enterTakeFirst wasBusy
      refine Working.of_turn h hthread ⟨hhires.inventory, hhires.createdThreads,
        hhires.inventoryMax, hhires.hasRoom⟩
        (congrArg (Function.update · thread _) (s.worker_enterTakeFirst wasBusy))
        (s.stateId_enterTakeFirst wasBusy) (s.caller_enterTakeFirst wasBusy) rfl
        fun _ => .inr (.inr ?_)
      rcases workerStep_waits hcontract hnodup hstep (by rw [State.pc_moveTo]; rfl) with
        hblock | hrefused
      · rw [hpc] at hblock
        cases hblock
      · exact hrefused
  | again _ _ hid => exact absurd h.workingHard hid
  | @expire wasBusy _ _ _ houtgrown =>
      -- nobody has lowered the maximum
      have hhires := s.hires_enterTakeFirst wasBusy
      have hlength := (h.staffed.of_hires hhires).length_le
      rw [hhires.inventoryMax] at hlength
      exact absurd hlength (Nat.not_le.mpr houtgrown)
  | suspend hpc | drop hpc =>
      have hatWork := h.atWork thread
      rw [hpc] at hatWork
      cases hatWork

omit [DecidableEq P] in
/-- The condition cannot be spared: a worker that looks at the list alone and leaves a job behind
that could be executed leaves the weaver in a state in which nobody takes it. -/
theorem State.Working.left_behind (h : s.Working S) (hidle : ∀ caller, s.caller caller = .idle)
    (halone : s.LooksAlone thread) (hleaves : ¬ s.LeavesNone S)
    (hstep : Weaver.workerStep S thread s = some next) :
    next.Settled ∧ next.SomeWaits ∧ ∃ job ∈ next.assignments, next.Accepts S job := by
  obtain ⟨wasBusy, hpc⟩ : ∃ wasBusy, (s.worker thread).pc = .dispatched .workingHard wasBusy := by
    have hlist := halone.atList
    cases hpc : (s.worker thread).pc with
    | dispatched id wasBusy =>
        rw [hpc] at hlist
        exact ⟨wasBusy, by rw [of_decide_eq_true hlist]⟩
    | _ => simp [hpc, WorkerPc.isAtList] at hlist
  simp only [State.LeavesNone, not_forall, not_not] at hleaves
  obtain ⟨taken, htaken, candidate, hcandidate, haccepts⟩ := hleaves
  cases workerStep_turn hstep with
  | pass hnext _ =>
      rw [hpc] at hnext
      cases hnext with
      | rest _ hid | leave _ hid => simp at hid
  | again _ _ hid => exact absurd h.workingHard hid
  | @expire wasBusy _ _ _ houtgrown =>
      have hhires := s.hires_enterTakeFirst wasBusy
      have hlength := (h.staffed.of_hires hhires).length_le
      rw [hhires.inventoryMax] at hlength
      exact absurd hlength (Nat.not_le.mpr houtgrown)
  | suspend hother | drop hother =>
      rw [hpc] at hother
      cases hother
  | wait _ _ _ _ hscan =>
      rw [hscan] at htaken
      cases htaken
  | @assign wasBusy job rest state _ _ _ _ hscan =>
      rw [hscan] at hcandidate haccepts
      obtain ⟨-, hpolicies, -⟩ := s.ledger_enterTakeFirst wasBusy
      have hworker : Function.update (s.enterTakeFirst wasBusy).worker thread
          ⟨.busy job .assigned, 0⟩ = Function.update s.worker thread ⟨.busy job .assigned, 0⟩ := by
        rw [s.worker_enterTakeFirst]
      have hcreated : (s.enterTakeFirst wasBusy).createdThreads = s.createdThreads := by
        have hfull := halone.full
        rw [(s.hires_enterTakeFirst wasBusy).createdThreads, State.room]
        omega
      refine ⟨⟨fun caller => (congrFun (s.caller_enterTakeFirst wasBusy) caller).trans
        (hidle caller), fun other hother => ?_⟩, ?_, candidate, hcandidate, ?_⟩
      · show (Function.update (s.enterTakeFirst wasBusy).worker thread _ other).pc.isWaiting ∨
          (Function.update (s.enterTakeFirst wasBusy).worker thread _ other).pc.job?.isSome
        rw [hworker, Function.update_apply]
        split
        · exact .inr rfl
        · rename_i hne
          exact WorkerPc.waits_or_works (h.atWork other)
            (halone.alone other (hother.trans_eq hcreated) hne)
      · obtain ⟨waiting, hold, hwaiting⟩ := halone.waits
        have hne : waiting ≠ thread := by
          rintro rfl
          rw [hpc] at hwaiting
          cases hwaiting
        refine ⟨waiting, hold.trans_eq hcreated.symm, ?_⟩
        show (Function.update (s.enterTakeFirst wasBusy).worker thread _ waiting).pc.isWaiting
        rw [hworker, Function.update_of_ne hne]
        exact hwaiting
      · rw [← hpolicies] at haccepts
        exact haccepts

end Turn

/-! ## Runs -/

section Runs

variable [DecidableEq J] [DecidableEq P] [DecidableEq T] {S : Setup J P σ ε}
  {start : Start J P σ} {s next : State J P T σ ε} {action : Act J P T ε}

omit [DecidableEq J] [DecidableEq P] [DecidableEq T] in
private theorem Act.begins_of_worksOn {caller : T} {pc : CallerPc} (haction : action.worksOn)
    (h : action.begins s = some (caller, pc)) :
    pc = .idle ∨ pc = .reschedule ∨ pc = .finish := by
  cases action with
  | finish other =>
      obtain ⟨rfl, rfl⟩ := Prod.mk.inj (Option.some.inj h)
      split
      · exact .inl rfl
      · exact .inr (.inr rfl)
  | configure other ops =>
      obtain ⟨rfl, rfl⟩ := Prod.mk.inj (Option.some.inj h)
      exact .inr (.inl rfl)
  | suspend _ | resume _ | shutDown _ | setMaximumNumberOfThreads _ | configureFromJob _ _ =>
      cases haction
  | enqueue _ | dequeue _ | dequeueAll | requestAbort | reschedule | proceed _ | timeout _
  | worker _ => cases h

theorem State.Working.step (hcontract : State.KeepsContract S)
    (hnodup : ∀ job, (s.queuePolicies job).Nodup) (h : s.Working S)
    (hok : ScansLeaveNone S s action) (hstep : Weaver.step S s action = some next) :
    next.Working S := by
  obtain ⟨haction, hleaves⟩ := hok
  cases step_turn hstep with
  | enqueue jobs _ =>
      rcases State.enqueueP_wakes S jobs s with hsame | hawake
      · rw [hsame]
        exact h
      · obtain ⟨k, hcall⟩ := s.queueCall_enqueueP S jobs
        exact h.queueCall hcall fun hwaits => absurd hwaits hawake.not_someWaits
  | call hcall hsublist hpolicies =>
      refine h.queueCall hcall fun _ => ⟨rfl, fun job hjob haccepts => ⟨hsublist.subset hjob, ?_⟩⟩
      have hops : action.ops? = none := by
        cases action with
        | configure caller ops =>
            -- this call does not return before it has called `reschedule`
            obtain ⟨begun, hbegun, rfl⟩ := Option.map_eq_some_iff.mp hstep
            obtain ⟨hidle, hcontrol⟩ := control_beginCall hbegun
            have hcaller : s.caller = Function.update s.caller caller .reschedule :=
              hcall.caller.symm.trans (congrArg Prod.snd hcontrol)
            have hself := congrFun hcaller caller
            rw [Function.update_self, hidle] at hself
            cases hself
        | configureFromJob _ _ => cases haction
        | _ => rfl
      obtain ⟨hqueue, hstate⟩ := hpolicies hops
      rwa [State.Accepts, hqueue, hstate] at haccepts
  | resize => cases haction
  | begin hbegins hbegun =>
      exact h.update_caller (Act.begins_of_worksOn haction hbegins) (fun _ => by simp [hbegun.idle])
        hbegun.caller hbegun.worker hbegun.crew hbegun.stateId hbegun.assignments hbegun.policies
  | setState hcaller | shutDown hcaller =>
      rcases h.requests _ with hother | hother | hother <;> rw [hcaller] at hother <;> cases hother
  | reschedule hcaller =>
      have hnone := (State.allAwake_reschedule s).not_someWaits
      have hwoken := h.queueCall s.queueCall_reschedule fun hwaits => absurd hwaits hnone
      exact hwoken.update_caller (.inl rfl) (fun hwaits => absurd hwaits hnone) rfl rfl
        ⟨rfl, rfl, rfl⟩ rfl rfl fun _ => ⟨rfl, rfl⟩
  | finish hcaller hidle =>
      exact h.update_caller (.inl rfl) (fun _ => by simp [hcaller]) rfl rfl ⟨rfl, rfl, rfl⟩ rfl rfl
        fun _ => ⟨rfl, rfl⟩
  | worker hthread _ =>
      simp only [Weaver.step, Option.ite_none_right_eq_some] at hstep
      exact h.workerStep hcontract hnodup hthread (hleaves _ hthread rfl) hstep.2

theorem runs_working {ok : State J P T σ ε → Act J P T ε → Prop}
    (hcontract : State.KeepsContract S)
    (hok : ∀ s action, (∀ job, (s.queuePolicies job).Nodup) → ok s action →
      ScansLeaveNone S s action)
    (hrun : Runs S ok start s) : s.Working S := by
  induction hrun with
  | refl =>
      refine ⟨rfl, ⟨Nat.zero_le _, fun thread hthread => absurd hthread (Nat.not_lt_zero _)⟩,
        fun _ _ => rfl, fun _ => rfl, fun _ => .inl rfl, ?_⟩
      rintro ⟨thread, hthread, _⟩
      exact absurd hthread (Nat.not_lt_zero _)
  | tail hrun hstepOk hstep ih =>
      have hnodup := runs_nodup_queuePolicies hrun
      exact ih.step hcontract hnodup (hok _ _ hnodup hstepOk) hstep

omit [DecidableEq J] [DecidableEq P] [DecidableEq T] in
/-- When every worker executes a job or waits, nobody is on the way to the list. -/
theorem State.Working.refused (h : s.Working S) (hsettled : s.Settled) (hwaits : s.SomeWaits) :
    ∀ job ∈ s.assignments, ¬ s.Accepts S job := by
  rcases h.attended hwaits with ⟨thread, hthread, hcoming⟩ | ⟨caller, hcaller⟩ | hrefused
  · rcases hsettled.workers thread hthread with hwaiting | hbusy
    · cases hpc : (s.worker thread).pc <;>
        simp [hpc, WorkerPc.isWaiting, WorkerPc.isComing] at hwaiting hcoming
    · cases hpc : (s.worker thread).pc <;>
        simp_all [WorkerPc.job?, WorkerPc.isComing]
  · rw [hsettled.idle caller] at hcaller
    cases hcaller
  · exact hrefused

end Runs

/-! ## Room for several jobs -/

section Room

variable [DecidableEq J] {R : Type*} [DecidableEq R]

/-- What a policy of the job asks for if all these jobs are to be executed at a time: the
dependency policy, that the job has no unresolved dependencies; a restriction, that beside its
customers there is room for those of the jobs that carry it. -/
def Admits (queuePolicies : J → List (Option R)) (state : Dependencies J × (R → Restriction J))
    (jobs : List J) (job : J) : Option R → Prop
  | none => state.1.hasUnresolvedDependencies job = false
  | some restriction =>
      ((state.2 restriction).customers.length : ℤ) +
        jobs.countP (some restriction ∈ queuePolicies ·) ≤ (state.2 restriction).cap

/-- There is room for all these jobs at a time. -/
def RoomFor (queuePolicies : J → List (Option R)) (state : Dependencies J × (R → Restriction J))
    (jobs : List J) : Prop :=
  ∀ job ∈ jobs, ∀ policy ∈ queuePolicies job, Admits queuePolicies state jobs job policy

instance (queuePolicies : J → List (Option R)) (state : Dependencies J × (R → Restriction J))
    (jobs : List J) (job : J) (policy : Option R) :
    Decidable (Admits queuePolicies state jobs job policy) :=
  match policy with
  | none => inferInstanceAs (Decidable (_ = _))
  | some _ => inferInstanceAs (Decidable (_ ≤ _))

instance (queuePolicies : J → List (Option R)) (state : Dependencies J × (R → Restriction J))
    (jobs : List J) : Decidable (RoomFor queuePolicies state jobs) :=
  inferInstanceAs (Decidable (∀ _ ∈ _, ∀ _ ∈ _, _))

variable {queuePolicies : J → List (Option R)} {state state' : Dependencies J × (R → Restriction J)}
  {job other : J}

theorem accepts_iff_roomFor (hnodup : (queuePolicies job).Nodup) :
    (withDependencies (restrictions J R).policies).Accepts (queuePolicies job) job state ↔
      RoomFor queuePolicies state [job] := by
  have hroom : ∀ restriction, some restriction ∈ queuePolicies job →
      (Admits queuePolicies state [job] job (some restriction) ↔
        ((state.2 restriction).canRun job).1 = true) := by
    intro restriction hmem
    simp only [Admits, List.countP_singleton, hmem, decide_true, if_true, Restriction.canRun]
    split
    · exact iff_of_true (by omega) rfl
    · exact iff_of_false (by omega) Bool.false_ne_true
  have hother : (queuePolicies job).reduceOption.Nodup :=
    hnodup.filterMap fun policy policy' restriction h h' => h.trans h'.symm
  rw [withDependencies_accepts_iff, PolicyObjects.accepts hother]
  simp only [RoomFor, List.mem_singleton, forall_eq]
  constructor
  · rintro ⟨hresolved, haccepts⟩ policy hmem
    cases policy with
    | none => exact hresolved hmem
    | some restriction =>
        exact (hroom restriction hmem).mpr (haccepts restriction (List.reduceOption_mem_iff.mpr hmem))
  · intro hadmits
    refine ⟨fun hmem => hadmits none hmem, fun restriction hmem => ?_⟩
    rw [List.reduceOption_mem_iff] at hmem
    exact (hroom restriction hmem).mp (hadmits _ hmem)

theorem roomFor_congr {jobs : List J} (hmap : state.1 = state'.1)
    (hsame : ∀ restriction, (state.2 restriction).Same (state'.2 restriction)) :
    RoomFor queuePolicies state jobs ↔ RoomFor queuePolicies state' jobs := by
  unfold RoomFor
  refine forall₂_congr fun job _ => forall₂_congr fun policy _ => ?_
  cases policy with
  | none => simp only [Admits, hmap]
  | some restriction =>
      obtain ⟨hcap, hperm⟩ := hsame restriction
      simp only [Admits, hcap, hperm.length_eq]

/-- After a job has been accepted, another one is accepted if there was room for both. -/
theorem accepts_after_iff_roomFor (hnodup : ∀ job, (queuePolicies job).Nodup)
    (haccepts : (withDependencies (restrictions J R).policies).Accepts (queuePolicies job) job state) :
    (withDependencies (restrictions J R).policies).Accepts (queuePolicies other) other
        ((withDependencies (restrictions J R).policies).canBeExecuted (queuePolicies job) job
          state).2 ↔
      RoomFor queuePolicies state [job, other] := by
  have hroom := (accepts_iff_roomFor (hnodup job)).mp haccepts
  obtain ⟨-, hcarried⟩ := withDependencies_accepts_iff.mp haccepts
  have hother : (queuePolicies job).reduceOption.Nodup :=
    (hnodup job).filterMap fun policy policy' restriction h h' => h.trans h'.symm
  rw [accepts_iff_roomFor (hnodup other), withDependencies_canBeExecuted haccepts]
  -- the job has become a customer of the restrictions that it carries
  set after := ((restrictions J R).policies.canBeExecuted (queuePolicies job).reduceOption job
    state.2).2 with hafter
  have hcustomer : ∀ restriction, (after restriction).cap = (state.2 restriction).cap ∧
      (after restriction).customers.length = (state.2 restriction).customers.length +
        [job].countP (some restriction ∈ queuePolicies ·) := by
    intro restriction
    rw [hafter, PolicyObjects.accepted_apply hother _ hcarried, List.countP_singleton]
    split
    · rename_i hmem
      have hcan := (PolicyObjects.accepts hother _).mp hcarried restriction hmem
      show ((state.2 restriction).canRun job).2.cap = _ ∧
        ((state.2 restriction).canRun job).2.customers.length = _
      rw [(Restriction.canRun_eq hcan).2]
      simp [List.reduceOption_mem_iff.mp hmem]
    · rename_i hmem
      rw [List.reduceOption_mem_iff] at hmem
      simp [hmem]
  have hadmits : ∀ policy, Admits queuePolicies (state.1, after) [other] other policy ↔
      Admits queuePolicies state [job, other] other policy := by
    intro policy
    cases policy with
    | none => exact Iff.rfl
    | some restriction =>
        obtain ⟨hcap, hlength⟩ := hcustomer restriction
        simp only [Admits, hcap, hlength, List.countP_cons, List.countP_nil]
        omega
  simp only [RoomFor, List.forall_mem_cons, hadmits] at hroom ⊢
  simp only [List.not_mem_nil, false_implies, implies_true, and_true] at hroom ⊢
  refine ⟨fun hboth => ⟨fun policy hmem => ?_, hboth⟩, fun h => h.2⟩
  cases policy with
  | none => exact hroom none hmem
  | some restriction =>
      by_cases hcarries : some restriction ∈ queuePolicies other
      · exact hboth _ hcarries
      · have hone := hroom _ hmem
        simp only [Admits, List.countP_cons, List.countP_nil, hcarries] at hone ⊢
        simpa using hone

end Room

/-! ## Dependencies and restrictions -/

section Policies

variable [DecidableEq J] {R : Type*} [DecidableEq R]

/-- A program whose policies are `DependencyPolicy` and resource restrictions. -/
def Setup.usePolicies (S : Setup J P σ ε) (R : Type*) [DecidableEq R] :
    Setup J (Option R) (Dependencies J × (R → Restriction J))
      (PolicyCall J (R × RestrictionCall J Empty)) :=
  Setup.addDependencyPolicy { S with
    policies := (restrictions J R).policies
    call := fun call state => Function.update state call.1
      (RestrictionCall.apply (fun call _ => call.elim) call.2 (state call.1, ())).1 }

/-- Beside the first job in the list for which there is room there is none for another one. -/
def State.RoomForOne (s : State J (Option R) T (Dependencies J × (R → Restriction J)) ε) : Prop :=
  ∀ job ∈ s.assignments.find? (fun job => RoomFor s.queuePolicies s.policyState [job]),
    ∀ other ∈ s.assignments.erase job, ¬ RoomFor s.queuePolicies s.policyState [job, other]

/-- The step is one of such programs, and a worker looks at the list alone only if there is room
for one of the jobs in it at most. -/
def LeavesNoneBehind (s : State J (Option R) T (Dependencies J × (R → Restriction J)) ε)
    (action : Act J (Option R) T ε) : Prop :=
  action.worksOn ∧
    ∀ thread < s.createdThreads, action = .worker thread → s.LooksAlone thread → s.RoomForOne

variable {S : Setup J P σ ε} {start : Start J (Option R) (Dependencies J × (R → Restriction J))}
  {s next : State J (Option R) T (Dependencies J × (R → Restriction J))
    (PolicyCall J (R × RestrictionCall J Empty))}

theorem usePolicies_undoneUpTo : (S.usePolicies R).policies.UndoneUpTo fun state state' =>
    state.1 = state'.1 ∧ ∀ restriction, (state.2 restriction).Same (state'.2 restriction) :=
  withDependencies_undoneUpTo restrictions_undoneUpTo

/-- The scan takes the first job for which there is room, and leaves one behind that could be
executed if there is room for both. -/
theorem State.roomForOne_iff (hnodup : ∀ job, (s.queuePolicies job).Nodup) :
    s.RoomForOne ↔ s.LeavesNone (S.usePolicies R) := by
  have hundone := usePolicies_undoneUpTo (S := S) (R := R)
  have hkept : State.KeptByRefusals (S.usePolicies R) s.queuePolicies fun state =>
      state.1 = s.policyState.1 ∧ ∀ restriction,
        (state.2 restriction).Same (s.policyState.2 restriction) :=
    fun _ _ hsame hrefused => hundone.equivalence.trans (hundone.of_refused hrefused) hsame
  have hrefl := hundone.equivalence.refl s.policyState
  have hrefused : ∀ candidate, (∃ state : Dependencies J × (R → Restriction J),
      (state.1 = s.policyState.1 ∧ ∀ restriction,
        (state.2 restriction).Same (s.policyState.2 restriction)) ∧
      ¬ (S.usePolicies R).policies.Accepts (s.queuePolicies candidate) candidate state) →
      ¬ RoomFor s.queuePolicies s.policyState [candidate] := by
    rintro candidate ⟨state, hsame, hrefused⟩ hroom
    exact hrefused ((accepts_iff_roomFor (hnodup candidate)).mpr
      ((roomFor_congr hsame.1 hsame.2).mpr hroom))
  unfold State.RoomForOne State.LeavesNone
  rcases hscan : State.scan (S.usePolicies R) s.queuePolicies s.assignments s.policyState with
    ⟨_ | job, rest, after⟩
  · -- there is room for no job at all
    obtain ⟨-, -, hall⟩ := State.scan_eq_none hkept hrefl hscan
    have hnone : s.assignments.find? (fun job => RoomFor s.queuePolicies s.policyState [job]) =
        none := by
      rw [List.find?_eq_none]
      exact fun candidate hmem => by simpa using hrefused candidate (hall candidate hmem)
    simp [hnone]
  · obtain ⟨front, back, before, hlist, rfl, hbefore, haccepts, rfl, hfront⟩ :=
      State.scan_eq_some hkept hrefl hscan
    have hroom := (roomFor_congr hbefore.1 hbefore.2).mp
      ((accepts_iff_roomFor (hnodup job)).mp haccepts)
    have hfirst : s.assignments.find? (fun job => RoomFor s.queuePolicies s.policyState [job]) =
        some job := by
      rw [List.find?_eq_some_iff_append]
      exact ⟨by simpa using hroom, front, back, hlist,
        fun candidate hmem => by simpa using hrefused candidate (hfront candidate hmem)⟩
    have hnot : job ∉ front := fun hmem => hrefused job (hfront job hmem) hroom
    have hrest : s.assignments.erase job = front ++ back := by
      rw [hlist, List.erase_append_right _ hnot, List.erase_cons_head]
    simp only [hfirst, Option.mem_some_iff, forall_eq', hrest]
    refine forall₂_congr fun candidate _ => not_congr ?_
    rw [← roomFor_congr hbefore.1 hbefore.2]
    exact (accepts_after_iff_roomFor hnodup haccepts).symm

variable [DecidableEq T]

end Policies

section

variable [DecidableEq J] [DecidableEq P] [DecidableEq T] [DecidableEq ε] [Fintype T]

instance (s : State J P T σ ε) : Decidable s.SomeWaits :=
  inferInstanceAs (Decidable (∃ thread < s.createdThreads, _))

instance (s : State J P T σ ε) (thread : ℕ) : Decidable (s.LooksAlone thread) :=
  decidable_of_iff
    ((s.worker thread).pc.isAtList ∧ s.SomeWaits ∧ s.inventoryMax ≤ s.inventory.length ∧
      (∀ other < s.createdThreads, other ≠ thread → (s.worker other).pc.isComing = false) ∧
      ∀ caller, s.caller caller ≠ .reschedule)
    ⟨fun ⟨h₁, h₂, h₃, h₄, h₅⟩ => ⟨h₁, h₂, h₃, h₄, h₅⟩, fun ⟨h₁, h₂, h₃, h₄, h₅⟩ =>
      ⟨h₁, h₂, h₃, h₄, h₅⟩⟩

instance (s : State J P T σ ε) : Decidable s.Settled :=
  decidable_of_iff
    ((∀ caller, s.caller caller = .idle) ∧ ∀ thread < s.createdThreads,
      (s.worker thread).pc.isWaiting ∨ (s.worker thread).pc.job?.isSome)
    ⟨fun ⟨h₁, h₂⟩ => ⟨h₁, h₂⟩, fun ⟨h₁, h₂⟩ => ⟨h₁, h₂⟩⟩

variable {R : Type*} [DecidableEq R]

instance (s : State J (Option R) T (Dependencies J × (R → Restriction J)) ε) :
    Decidable s.RoomForOne :=
  inferInstanceAs (Decidable (∀ job ∈ (_ : Option J), ∀ _ ∈ _, _))

instance (s : State J (Option R) T (Dependencies J × (R → Restriction J)) ε)
    (action : Act J (Option R) T ε) : Decidable (LeavesNoneBehind s action) :=
  inferInstanceAs (Decidable (_ ∧ ∀ thread < s.createdThreads, _))

end

/-- Numbered jobs with one restriction and the dependency policy. -/
abbrev NumberedState :=
  State ℕ (Option Unit) Unit (Dependencies ℕ × (Unit → Restriction ℕ))
    (PolicyCall ℕ (Unit × RestrictionCall ℕ Empty))

/-- Two jobs depend on job 0, and the four workers look at the list. -/
private def twoDependents :
    List (Act ℕ (Option Unit) Unit (PolicyCall ℕ (Unit × RestrictionCall ℕ Empty))) :=
  [.configure () (addDependency 1 0 ++ addDependency 2 0), .proceed (),
    .enqueue [some 0, some 1, some 2]] ++
    [0, 1, 2, 3].flatMap fun thread => List.replicate 3 (.worker thread)

end ThreadWeaver.Weaver
