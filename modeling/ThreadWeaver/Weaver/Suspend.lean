import ThreadWeaver.Weaver.Control
import ThreadWeaver.Weaver.Order
import Mathlib.Data.List.Induction

/-!
# Suspending and resuming

A worker of a suspended weaver leaves the mutex between the section in which it saw the
state and the one in which it blocks.  When `resume` wakes the workers in between, that
worker is not waiting yet and blocks afterwards, in a weaver that is working.  A queue in
which this happened to every worker has stalled.

In runs in which no worker blocks that way the queue never stalls: as long as the weaver is
working, some worker is awake, or a thread that has changed policies has still to call
`reschedule`, or the last scan has refused all jobs.
-/

namespace ThreadWeaver.Weaver

variable {J P T σ ε : Type*}

/-- The thread is blocked in `jobAvailable.wait`. -/
def WorkerPc.isWaiting : WorkerPc J → Bool
  | waiting _ => true
  | _ => false

/-- The thread is about to block outside of the scan. -/
def WorkerPc.isBlocking : WorkerPc J → Bool
  | blockThread _ => true
  | _ => false

/-- The weaver is working and has workers, all of them blocked, no caller is about to do
anything, and a job in the list would be accepted. -/
structure State.Stalled (S : Setup J P σ ε) (s : State J P T σ ε) : Prop where
  workingHard : s.stateId = .workingHard
  staffed : s.inventory ≠ []
  blocked : ∀ thread ∈ s.inventory, (s.worker thread).pc.isWaiting
  idle : ∀ caller, s.caller caller = .idle
  accepted : ∃ job ∈ s.assignments, s.Accepts S job

/-- The steps of programs that enqueue, suspend and resume, and of the workers. -/
def Act.suspendsOrResumes : Act J P T ε → Bool
  | .enqueue _ | .reschedule | .suspend _ | .resume _ | .proceed _ | .worker _ => true
  | _ => false

/-- The steps that change policies and are followed by a look at the list. -/
def Act.configures : Act J P T ε → Bool
  | .configure _ _ | .configureFromJob _ _ => true
  | _ => false

/-- The step is the one of a worker that blocks although the weaver is working. -/
def BlocksTooLate (s : State J P T σ ε) : Act J P T ε → Bool
  | .worker thread => s.stateId = .workingHard && (s.worker thread).pc.isBlocking
  | _ => false

/-! ## The threads of the inventory -/

/-- The numbers that decide about the creation of threads. -/
def State.crew (s : State J P T σ ε) : List ℕ × ℕ × ℕ :=
  (s.inventory, s.inventoryMax, s.createdThreads)

/-- The inventory has not outgrown its maximum, and all threads are in it. -/
structure State.Staffed (s : State J P T σ ε) : Prop where
  length_le : s.inventory.length ≤ s.inventoryMax
  mem_inventory : ∀ thread < s.createdThreads, thread ∈ s.inventory

namespace State

variable {s s' : State J P T σ ε}

theorem Staffed.of_crew_eq (h : s.Staffed) (hcrew : s'.crew = s.crew) : s'.Staffed := by
  simp only [crew, Prod.mk.injEq] at hcrew
  obtain ⟨hinventory, hmax, hcreated⟩ := hcrew
  exact ⟨by rw [hinventory, hmax]; exact h.length_le,
    by rw [hinventory, hcreated]; exact h.mem_inventory⟩

theorem Staffed.createThread (h : s.Staffed) (hroom : s.inventory.length < s.inventoryMax) :
    s.createThread.Staffed where
  length_le := by
    simp only [State.createThread, List.length_append, List.length_singleton]
    omega
  mem_inventory thread hthread := by
    simp only [State.createThread, List.mem_append, List.mem_singleton] at hthread ⊢
    rcases Nat.lt_succ_iff_lt_or_eq.mp hthread with hold | rfl
    · exact .inl (h.mem_inventory thread hold)
    · exact .inr rfl

theorem Staffed.adjustInventory (h : s.Staffed) (n : ℕ) : (s.adjustInventory n).Staffed := by
  have hiterate : ∀ k s, State.Staffed s → k ≤ s.inventoryMax - s.inventory.length →
      (State.createThread^[k] s : State J P T σ ε).Staffed := by
    intro k
    induction k with
    | zero => exact fun s h _ => h
    | succ k ih =>
        intro s h hroom
        rw [Function.iterate_succ_apply]
        refine ih _ (h.createThread (by omega)) ?_
        simp only [State.createThread, List.length_append, List.length_singleton]
        omega
  exact hiterate _ s h (Nat.min_le_left _ _)

@[simp] theorem crew_setStateP (id : StateId) (s : State J P T σ ε) :
    (s.setStateP id).crew = s.crew := by
  unfold setStateP
  split
  · rfl
  · cases id <;> rfl

theorem le_createdThreads_adjustInventory (n : ℕ) (s : State J P T σ ε) :
    s.createdThreads ≤ (s.adjustInventory n).createdThreads := by
  unfold State.adjustInventory
  induction min (s.inventoryMax - s.inventory.length) n with
  | zero => exact le_rfl
  | succ k ih =>
      rw [Function.iterate_succ_apply']
      exact ih.trans (Nat.le_succ _)

/-! ## Waking -/

/-- No worker waits. -/
def AllAwake (s : State J P T σ ε) : Prop := ∀ thread, (s.worker thread).pc.isWaiting = false

theorem allAwake_reschedule (s : State J P T σ ε) : s.reschedule.AllAwake := by
  intro thread
  simp only [reschedule, Worker.wake]
  split
  · rfl
  · rename_i hwaiting
    cases hpc : (s.worker thread).pc with
    | waiting wasBusy => exact absurd hpc (hwaiting wasBusy)
    | _ => rfl

/-- Enqueueing wakes all workers, unless there was nothing to enqueue. -/
theorem enqueueP_wakes [DecidableEq J] (S : Setup J P σ ε) (jobs : List (Option J))
    (s : State J P T σ ε) : s.enqueueP S jobs = s ∨ (s.enqueueP S jobs).AllAwake := by
  unfold enqueueP
  generalize jobs.length = n
  induction jobs using List.reverseRecOn with
  | nil => exact .inl rfl
  | append_singleton init last ih =>
      rw [List.foldl_append]
      cases last with
      | none => exact ih
      | some job => exact .inr (allAwake_reschedule _)

theorem Staffed.enqueueP [DecidableEq J] {S : Setup J P σ ε} (h : s.Staffed)
    (jobs : List (Option J)) : (s.enqueueP S jobs).Staffed := by
  unfold State.enqueueP
  generalize jobs.length = n
  induction jobs generalizing s with
  | nil => exact h
  | cons head rest ih =>
      cases head with
      | none => exact ih h
      | some job => exact ih ((h.adjustInventory n).of_crew_eq rfl)

/-! ## Workers -/

/-- The threads of a staffed weaver stay, and others may join them. -/
structure StaysStaffed (s s' : State J P T σ ε) : Prop where
  staffed : s'.Staffed
  created : s.createdThreads ≤ s'.createdThreads

theorem StaysStaffed.of_crew_eq {s'' : State J P T σ ε} (h : s.StaysStaffed s')
    (hcrew : s''.crew = s'.crew) : s.StaysStaffed s'' where
  staffed := h.staffed.of_crew_eq hcrew
  created := by
    have hcreated : s''.createdThreads = s'.createdThreads :=
      congrArg (fun crew => crew.2.2) hcrew
    rw [hcreated]
    exact h.created

theorem Staffed.enterTakeFirst (h : s.Staffed) (threadWasBusy : Bool) :
    s.StaysStaffed (s.enterTakeFirst threadWasBusy) := by
  have hadjusted : s.StaysStaffed (s.deleteExpiredThreads.adjustInventory 1) :=
    ⟨Staffed.adjustInventory (s := s.deleteExpiredThreads) (h.of_crew_eq rfl) 1,
      le_createdThreads_adjustInventory 1 s.deleteExpiredThreads⟩
  unfold State.enterTakeFirst
  dsimp only
  split
  · exact hadjusted.of_crew_eq rfl
  · exact hadjusted

variable {S : Setup J P σ ε}

/-- While the inventory has not outgrown its maximum no thread is turned away. -/
theorem Staffed.takeFirst (h : s.Staffed) (thread : ℕ)
    (threadWasBusy suspendIfInactive justReturning : Bool) :
    s.StaysStaffed (s.takeFirstAvailableJobOrSuspendOrWait S thread threadWasBusy
      suspendIfInactive justReturning).2 := by
  have hentered := h.enterTakeFirst threadWasBusy
  unfold takeFirstAvailableJobOrSuspendOrWait
  dsimp only
  generalize s.enterTakeFirst threadWasBusy = s₁ at hentered
  split
  · exact hentered.of_crew_eq (crew_setStateP _ _)
  · split
    · exact hentered
    · split
      · rename_i hoverfull
        exact absurd hentered.staffed.length_le (Nat.not_le.mpr hoverfull)
      · split
        · exact hentered.of_crew_eq rfl
        · exact hentered.of_crew_eq rfl

/-- A refused attempt to execute a job makes no difference to any job.  It is what
`canBeExecuted` promises of the policies of a job, none of which is listed twice. -/
def KeepsContract (S : Setup J P σ ε) : Prop :=
  ∀ queuePolicies : J → List P, (∀ job, (queuePolicies job).Nodup) →
    S.policies.LeavesNoTrace queuePolicies

/-- A thread that begins to wait in `takeFirstAvailableJobOrSuspendOrWait` leaves no job in
the list that could run. -/
theorem refused_of_waits (hcontract : KeepsContract S)
    (hnodup : ∀ job, (s.queuePolicies job).Nodup) {thread : ℕ}
    {threadWasBusy suspendIfInactive justReturning : Bool} {after : State J P T σ ε}
    (htaken : s.takeFirstAvailableJobOrSuspendOrWait S thread threadWasBusy suspendIfInactive
      justReturning = (.waits, after)) :
    ∀ job ∈ after.assignments, ¬ after.Accepts S job := by
  obtain ⟨_, hqueuePolicies, _⟩ := s.ledger_enterTakeFirst threadWasBusy
  unfold takeFirstAvailableJobOrSuspendOrWait at htaken
  dsimp only at htaken
  generalize s.enterTakeFirst threadWasBusy = s₁ at hqueuePolicies htaken
  rw [← hqueuePolicies] at hnodup
  -- what is accepted before the scan is accepted after each of its attempts
  have hkept : KeptByRefusals S s₁.queuePolicies fun state => ∀ job,
      S.policies.Accepts (s₁.queuePolicies job) job state ↔ s₁.Accepts S job := by
    intro candidate state hsame hrefused job
    exact (hcontract _ hnodup candidate state hrefused job).trans (hsame job)
  split at htaken
  · cases htaken
  · split at htaken
    · cases htaken
    · split at htaken
      · cases htaken
      · split at htaken
        · cases htaken
        · rename_i hnone
          obtain ⟨hrest, hafter, hall⟩ := scan_eq_none hkept (fun _ => Iff.rfl)
            (Prod.ext hnone rfl)
          obtain ⟨-, rfl⟩ := Prod.mk.inj htaken
          intro job hjob haccepts
          simp only [hrest] at hjob
          obtain ⟨state, hstate, hrefused⟩ := hall job hjob
          exact hrefused ((hstate job).mpr ((hafter job).mp haccepts))

end State

section Steps

variable [DecidableEq J] [DecidableEq P] {S : Setup J P σ ε} {s next : State J P T σ ε}

omit [DecidableEq P] in
theorem workerStep_staffed {thread : ℕ} (h : s.Staffed)
    (hstep : workerStep S thread s = some next) : s.StaysStaffed next := by
  have hsame : s.StaysStaffed s := ⟨h, le_rfl⟩
  unfold workerStep at hstep
  split at hstep
  case h_3 wasBusy _ =>
      -- the working weaver
      rw [Option.ite_none_right_eq_some] at hstep
      rw [← Option.some.inj hstep.2]
      have htake := h.takeFirst (S := S) thread wasBusy false false
      unfold State.workingHardApplyForWork
      dsimp only
      split <;> exact htake.of_crew_eq rfl
  case h_4 wasBusy _ =>
      -- the suspending weaver
      rw [Option.ite_none_right_eq_some] at hstep
      rw [← Option.some.inj hstep.2]
      have htake := h.takeFirst (S := S) thread wasBusy true true
      unfold State.suspendingApplyForWork
      dsimp only
      split <;> exact htake.of_crew_eq rfl
  case h_17 =>
      split at hstep <;> exact hsame.of_crew_eq (Option.some.inj hstep ▸ rfl)
  all_goals first
    | exact hsame.of_crew_eq (Option.some.inj hstep ▸ rfl)
    | cases hstep

omit [DecidableEq P] in
/-- A worker waits after its step when it blocked outside of the scan or when the scan has
refused every job. -/
theorem workerStep_waits (hcontract : State.KeepsContract S)
    (hnodup : ∀ job, (s.queuePolicies job).Nodup) {thread : ℕ}
    (hstep : workerStep S thread s = some next) (hwaits : (next.worker thread).pc.isWaiting) :
    (s.worker thread).pc.isBlocking ∨
      ∀ job ∈ next.assignments, ¬ next.Accepts S job := by
  cases hpc : (s.worker thread).pc with
  | blockThread wasBusy => exact .inl rfl
  | dispatched id wasBusy =>
      right
      cases id with
      | workingHard =>
          simp only [workerStep, hpc, Option.ite_none_right_eq_some, Option.some.injEq] at hstep
          obtain ⟨reply, after, htaken⟩ : ∃ reply after,
              s.takeFirstAvailableJobOrSuspendOrWait S thread wasBusy false false =
                (reply, after) := ⟨_, _, rfl⟩
          rw [← hstep.2, State.workingHardApplyForWork, htaken] at hwaits ⊢
          cases reply with
          | waits =>
              have hrefused := State.refused_of_waits hcontract hnodup htaken
              exact hrefused
          | job job | null | abortThread => simp [WorkerPc.isWaiting] at hwaits
      | suspending =>
          simp only [workerStep, hpc, Option.ite_none_right_eq_some, Option.some.injEq] at hstep
          have hreply := takeFirstAvailableJobOrSuspendOrWait_justReturning (S := S) thread
            wasBusy true s
          rw [← hstep.2, State.suspendingApplyForWork, hreply] at hwaits
          simp [WorkerPc.isWaiting] at hwaits
      | suspended | inConstruction | shuttingDown | destructed =>
          simp only [workerStep, hpc, Option.some.injEq] at hstep
          rw [← hstep] at hwaits
          simp [WorkerPc.isWaiting] at hwaits
  | waitForAvailableJob wasBusy =>
      simp only [workerStep, hpc, Option.some.injEq] at hstep
      rw [← hstep, State.pc_moveTo] at hwaits
      split at hwaits <;> cases hwaits
  | busy held phase =>
      cases phase with
      | freeing index =>
          simp only [workerStep, hpc] at hstep
          split at hstep
          all_goals
            rw [← Option.some.inj hstep, State.pc_moveTo] at hwaits
            cases hwaits
      | assigned | executing | running | ending | returned =>
          simp only [workerStep, hpc, Option.some.injEq] at hstep
          rw [← hstep, State.pc_moveTo] at hwaits
          cases hwaits
  | applyForWork wasBusy =>
      simp only [workerStep, hpc, Option.some.injEq] at hstep
      simp [← hstep, WorkerPc.isWaiting] at hwaits
  | started | woken wasBusy =>
      simp only [workerStep, hpc, Option.some.injEq] at hstep
      rw [← hstep, State.pc_moveTo] at hwaits
      cases hwaits
  | waiting wasBusy | exited => simp [workerStep, hpc] at hstep

end Steps

/-! ## Runs -/

section Runs

variable [DecidableEq J] [DecidableEq P] [DecidableEq T] {S : Setup J P σ ε}
  {start : Start J P σ} {s next : State J P T σ ε}

/-- While the weaver is working somebody will look at the list again, unless nothing in it
can run. -/
structure State.Attended (S : Setup J P σ ε) (s : State J P T σ ε) : Prop where
  staffed : s.Staffed
  attended : s.stateId = .workingHard →
    (∃ thread ∈ s.inventory, (s.worker thread).pc.isWaiting = false) ∨
      (∃ caller, s.caller caller = .reschedule) ∨ s.inventory = [] ∨
      ∀ job ∈ s.assignments, ¬ s.Accepts S job

/-- The steps of such programs in which no worker blocks in a working weaver. -/
def NoneBlocksTooLate (s : State J P T σ ε) (action : Act J P T ε) : Prop :=
  (action.suspendsOrResumes ∨ action.configures) ∧ BlocksTooLate s action = false

instance (s : State J P T σ ε) (action : Act J P T ε) :
    Decidable (NoneBlocksTooLate s action) :=
  inferInstanceAs (Decidable (_ ∧ _))

omit [DecidableEq J] [DecidableEq P] [DecidableEq T] in
/-- When all workers are awake the list is attended. -/
theorem State.AllAwake.attended (h : s.AllAwake) (hstaffed : s.Staffed) : s.Attended S where
  staffed := hstaffed
  attended _ := by
    cases hinventory : s.inventory with
    | nil => exact .inr (.inr (.inl rfl))
    | cons thread rest => exact .inl ⟨thread, List.mem_cons_self, h thread⟩

omit [DecidableEq J] [DecidableEq P] in
/-- A caller that was not about to call `reschedule` moves on. -/
theorem State.Attended.setCaller (h : s.Attended S) {caller : T}
    (hcaller : s.caller caller ≠ .reschedule) (pc : CallerPc) :
    (s.setCaller caller pc).Attended S where
  staffed := h.staffed.of_crew_eq rfl
  attended hid := by
    rcases h.attended hid with hawake | ⟨other, hother⟩ | hrest
    · exact .inl hawake
    · have hne : other ≠ caller := by
        rintro rfl
        exact hcaller hother
      exact .inr (.inl ⟨other, by simp [State.setCaller, Function.update_of_ne hne, hother]⟩)
    · exact .inr (.inr hrest)

omit [DecidableEq J] [DecidableEq P] in
theorem State.Attended.beginCall (h : s.Attended S) {caller : T} {pc : CallerPc}
    (hstep : beginCall caller pc s = some next) : next.Attended S := by
  unfold Weaver.beginCall at hstep
  split at hstep
  · rename_i hidle
    rw [← Option.some.inj hstep]
    exact h.setCaller (by simp [hidle]) pc
  · cases hstep

omit [DecidableEq J] [DecidableEq P] [DecidableEq T] in
/-- A caller sets the state object: when the weaver begins to work, all workers are woken. -/
theorem State.Attended.setStateP (h : s.Attended S) (id : StateId) :
    (s.setStateP id).Attended S := by
  have hstaffed := h.staffed.of_crew_eq (State.crew_setStateP id s)
  by_cases hsame : s.stateId = id
  · unfold State.setStateP
    rw [if_pos hsame]
    exact h
  · by_cases hid : id = .workingHard
    · refine State.AllAwake.attended ?_ hstaffed
      subst hid
      unfold State.setStateP
      rw [if_neg hsame]
      exact State.allAwake_reschedule _
    · refine ⟨hstaffed, fun hnext => absurd ?_ hid⟩
      have hcontrol := congrArg Prod.fst (State.control_setStateP s id)
      exact hcontrol.symm.trans hnext

theorem State.Attended.step (hcontract : State.KeepsContract S)
    (hnodup : ∀ job, (s.queuePolicies job).Nodup) (husable : s.Usable) (h : s.Attended S)
    {action : Act J P T ε} (hok : NoneBlocksTooLate s action)
    (hstep : Weaver.step S s action = some next) : next.Attended S := by
  cases action with
  | enqueue jobs =>
      rw [← Option.some.inj hstep, unlessDestructed, if_neg husable.not_destructed]
      rcases State.enqueueP_wakes S jobs s with hsame | hawake
      · rw [hsame]
        exact h
      · exact hawake.attended (h.staffed.enqueueP jobs)
  | reschedule =>
      rw [← Option.some.inj hstep]
      exact (State.allAwake_reschedule s).attended (h.staffed.of_crew_eq rfl)
  | suspend caller => exact h.beginCall hstep
  | resume caller => exact h.beginCall hstep
  | configure caller ops =>
      obtain ⟨begun, hbegun, rfl⟩ := Option.map_eq_some_iff.mp hstep
      have hcaller : begun.caller caller = .reschedule := by
        rw [show begun.caller = _ from congrArg Prod.snd (control_beginCall hbegun).2]
        exact Function.update_self ..
      exact ⟨(h.beginCall hbegun).staffed.of_crew_eq rfl, fun _ => .inr (.inl ⟨caller, hcaller⟩)⟩
  | configureFromJob thread ops =>
      simp only [Weaver.step, Option.ite_none_right_eq_some, Option.some.injEq] at hstep
      obtain ⟨⟨hcreated, hrunning⟩, rfl⟩ := hstep
      have hawake : (s.worker thread).pc.isWaiting = false := by
        cases hpc : (s.worker thread).pc <;> simp_all [WorkerPc.isRunning, WorkerPc.isWaiting]
      exact ⟨h.staffed.of_crew_eq rfl, fun _ =>
        .inl ⟨thread, h.staffed.mem_inventory thread hcreated, hawake⟩⟩
  | proceed caller =>
      have hkeeps := husable.keepsQueue caller
      simp only [Weaver.step, callerStep] at hstep
      split at hstep
      · cases hstep
      · rename_i id hcaller
        rw [← Option.some.inj hstep]
        exact (h.setCaller (by simp [hcaller]) .idle).setStateP id
      · rw [← Option.some.inj hstep]
        exact (State.allAwake_reschedule _).attended (h.staffed.of_crew_eq rfl)
      · rename_i hcaller
        rw [Option.ite_none_right_eq_some] at hstep
        rw [← Option.some.inj hstep.2]
        exact h.setCaller (by simp [hcaller]) .idle
      · rename_i hcaller
        rw [hcaller] at hkeeps
        cases hkeeps
  | worker thread =>
      simp only [Weaver.step, Option.ite_none_right_eq_some] at hstep
      obtain ⟨hcreated, hstep⟩ := hstep
      obtain ⟨hstaffed, hgrows⟩ := workerStep_staffed h.staffed hstep
      refine ⟨hstaffed, fun hworking => ?_⟩
      have hmem : thread ∈ next.inventory :=
        hstaffed.mem_inventory thread (hcreated.trans_le hgrows)
      cases hwaiting : (next.worker thread).pc.isWaiting with
      | false => exact .inl ⟨thread, hmem, hwaiting⟩
      | true =>
          rcases workerStep_waits hcontract hnodup hstep hwaiting with hblock | hrefused
          · -- the worker has not blocked in a working weaver, and does not make it work
            rcases workerStep_control hstep with hcontrol | ⟨_, hcontrol⟩
            · have hsame : s.stateId = .workingHard :=
                (congrArg Prod.fst hcontrol).symm.trans hworking
              have hnot := hok.2
              simp [BlocksTooLate, hsame, hblock] at hnot
            · have hsuspended : next.stateId = .suspended := congrArg Prod.fst hcontrol
              rw [hsuspended] at hworking
              cases hworking
          · exact .inr (.inr (.inr hrefused))
  | dequeue _ | dequeueAll | setMaximumNumberOfThreads _ | requestAbort | finish _ | shutDown _
  | timeout _ => rcases hok.1 with hno | hno <;> cases hno

omit [DecidableEq J] [DecidableEq P] [DecidableEq T] in
theorem NoneBlocksTooLate.keeps {action : Act J P T ε} (h : NoneBlocksTooLate s action) :
    action.isShutDown = false := by
  cases action with
  | shutDown caller => rcases h.1 with hno | hno <;> cases hno
  | _ => rfl

theorem runs_attended (hcontract : State.KeepsContract S)
    (hrun : Runs S NoneBlocksTooLate start s) : s.Attended S := by
  have hinit : (init (T := T) S start).Attended S := by
    refine ⟨⟨Nat.zero_le _, fun thread hthread => absurd hthread (Nat.not_lt_zero _)⟩, fun _ => ?_⟩
    exact .inr (.inr (.inl rfl))
  induction hrun with
  | refl => exact hinit
  | tail hrun hok hstep ih =>
      have husable := runs_usable (fun _ _ h => h.keeps) hrun
      exact ih.step hcontract (runs_nodup_queuePolicies hrun) husable hok hstep

/-- **The queue does not stall in a run in which no worker blocks in a working weaver.** -/
theorem not_stalled (hcontract : State.KeepsContract S)
    (hrun : Runs S NoneBlocksTooLate start s) : ¬ s.Stalled S := by
  intro hstalled
  rcases (runs_attended hcontract hrun).attended hstalled.workingHard with
    ⟨thread, hmem, hawake⟩ | ⟨caller, hcaller⟩ | hempty | hrefused
  · rw [hstalled.blocked thread hmem] at hawake
    cases hawake
  · rw [hstalled.idle caller] at hcaller
    cases hcaller
  · exact hstalled.staffed hempty
  · obtain ⟨job, hjob, haccepts⟩ := hstalled.accepted
    exact hrefused job hjob haccepts

end Runs

/-- While the scan refuses the only job in the list, the worker waits and the queue has not
stalled. -/
theorem not_stalled_refused :
    ∃ s : State ℕ Unit Unit (Unit → ℕ) Empty, s.stateId = .workingHard ∧
      s.assignments = [0] ∧ ¬ s.Stalled numbered := by
  obtain ⟨s, hrun, hid, hlist⟩ : ∃ s : State ℕ Unit Unit (Unit → ℕ) Empty,
      Runs numbered NoneBlocksTooLate (.plain fun _ => 1) s ∧ _ :=
    Library.exists_runWhere (fun s => s.stateId = .workingHard ∧ s.assignments = [0])
      [.configure () [.assignQueuePolicy 0 ()], .proceed (), .enqueue [some 0], .suspend (),
        .proceed (), .resume (), .proceed (), .worker 0, .worker 0, .worker 0] (by decide)
  have hcontract : State.KeepsContract numbered := fun queuePolicies _ =>
    oneAtATime_releaseUndoes.undoneUpTo.leavesNoTrace queuePolicies
  exact ⟨s, hid, hlist, not_stalled hcontract hrun⟩

/-- **A wake-up can get lost.**  Two workers have seen that the weaver is suspended and are
on their way to block when it is resumed.  They block after the wake-up, and the job in the
list waits for ever. -/
theorem stalled_after_resume :
    ∃ s : State ℕ Unit Unit (Unit → ℕ) Empty,
      Runs numbered (fun _ action => action.suspendsOrResumes) (.plain fun _ => 0) s ∧
        s.Stalled numbered := by
  obtain ⟨s, hrun, hid, hstaffed, hblocked, hidle, haccepted⟩ :
      ∃ s : State ℕ Unit Unit (Unit → ℕ) Empty,
        Runs numbered (fun _ action => action.suspendsOrResumes) (.plain fun _ => 0) s ∧ _ :=
    Library.exists_runWhere
      (fun s => s.stateId = .workingHard ∧ s.inventory ≠ [] ∧
        (∀ thread ∈ s.inventory, (s.worker thread).pc.isWaiting) ∧
        s.caller () = .idle ∧ ∃ job ∈ s.assignments, s.Accepts numbered job)
      [.enqueue [some 0], .suspend (), .proceed (), .worker 0, .worker 0, .worker 0, .worker 1,
        .worker 1, .worker 1, .resume (), .proceed (), .worker 0, .worker 0, .worker 1,
        .worker 1] (by decide)
  exact ⟨s, hrun, hid, hstaffed, hblocked, fun _ => hidle, haccepted⟩

end ThreadWeaver.Weaver
