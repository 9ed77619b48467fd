import ThreadWeaver.Weaver.Inventory
import ThreadWeaver.Weaver.Suspend

/-!
# Completing a suspension

A suspending weaver is suspended by the last active worker that applies for work.  So it
takes a worker that will apply: one that is executing a job, one that is awake and has not
yet decided to block, or one that waits and is woken by the suspension.  When there is none,
the weaver stays in `Suspending`.
-/

namespace ThreadWeaver.Weaver

variable {J P T σ ε : Type*}

/-- The worker will apply for work in the suspending weaver before it blocks. -/
def WorkerPc.isHeading : WorkerPc J → Bool
  | started | applyForWork _ | woken _ | busy _ _ => true
  | dispatched id _ => id = .workingHard || id = .suspending
  | waitForAvailableJob _ | blockThread _ | waiting _ | exited => false

theorem WorkerPc.isHeading_eq_false {pc : WorkerPc J} (h : pc.isWaiting) :
    pc.isHeading = false := by
  cases pc <;> first | rfl | cases h

namespace State

/-- Some worker heads for its application. -/
def HasHeading (s : State J P T σ ε) : Prop :=
  ∃ thread < s.createdThreads, (s.worker thread).pc.isHeading

/-- Some worker heads for its application, or can be woken to do so. -/
def Notices (s : State J P T σ ε) : Prop :=
  ∃ thread < s.createdThreads,
    (s.worker thread).pc.isHeading ∨ (s.worker thread).pc.isWaiting

instance (s : State J P T σ ε) : Decidable s.Notices :=
  inferInstanceAs (Decidable (∃ thread < s.createdThreads, _))

/-- The weaver is suspending with nothing in progress: nothing is active, no caller is about
to do anything, and all its workers are blocked. -/
structure StuckSuspending (s : State J P T σ ε) : Prop where
  suspending : s.stateId = .suspending
  inactive : s.active = 0
  idle : ∀ caller, s.caller caller = .idle
  blocked : ∀ thread ∈ s.inventory, (s.worker thread).pc.isWaiting

end State

/-- When the weaver begins to suspend some worker notices it. -/
def SuspendsNoticed [DecidableEq T] (s : State J P T σ ε) (action : Act J P T ε) : Prop :=
  KeepsRunning s action ∧
    ∀ caller, action = .proceed caller → s.caller caller = .setState .suspending →
      s.stateId ≠ .suspending → s.Notices

section Steps

variable [DecidableEq J] [DecidableEq P] [DecidableEq T] {S : Setup J P σ ε}
  {start : Start J P σ} {s next : State J P T σ ε} {action : Act J P T ε}

omit [DecidableEq J] [DecidableEq P] [DecidableEq T] in
theorem Worker.heading_wake {worker : Worker J}
    (h : worker.pc.isHeading ∨ worker.pc.isWaiting) : worker.wake.pc.isHeading := by
  obtain ⟨pc, activations⟩ := worker
  cases pc <;> simp_all [Worker.wake, WorkerPc.isHeading, WorkerPc.isWaiting]

omit [DecidableEq J] [DecidableEq P] [DecidableEq T] in
private theorem heading_of_wakes (h : s.HasHeading) (hwakes : next.WakesFrom s)
    (hcreated : s.createdThreads ≤ next.createdThreads) : next.HasHeading := by
  obtain ⟨thread, hthread, hheading⟩ := h
  refine ⟨thread, hthread.trans_le hcreated, ?_⟩
  rcases hwakes with hworker | hworker
  · rw [hworker]
    exact hheading
  · rw [hworker]
    exact Worker.heading_wake (.inl hheading)

omit [DecidableEq J] [DecidableEq P] [DecidableEq T] in
/-- While something is active, a worker will come with its report. -/
theorem State.Accounted.hasHeading (h : s.Accounted) (hactive : s.active ≠ 0) :
    s.HasHeading := by
  have hcard : s.owing.card ≠ 0 := by
    have htally := h.tallied.active
    omega
  obtain ⟨thread, hmem⟩ := Finset.card_ne_zero.mp hcard
  obtain ⟨hthread, howes⟩ := State.mem_owing.mp hmem
  refine ⟨thread, hthread, ?_⟩
  have hreports := h.reports thread
  cases hpc : (s.worker thread).pc <;> rw [hpc] at howes hreports
  case dispatched id wasBusy =>
      rcases hreports howes with rfl | rfl <;> rfl
  case waitForAvailableJob | blockThread | waiting | woken =>
      exact absurd (hreports.symm.trans howes) Bool.false_ne_true
  all_goals first | rfl | cases howes

omit [DecidableEq J] [DecidableEq P] [DecidableEq T] in
/-- A worker that takes its turn in a suspending weaver still heads for its application, or
it has suspended the weaver, or others are active. -/
private theorem heading_of_turn (hnext : next.Accounted) (hheading : s.HasHeading) {thread : ℕ}
    (hthread : thread < s.createdThreads) (hturn : WorkerTurn S thread s next)
    (hbefore : s.stateId = .suspending) (hafter : next.stateId = .suspending) :
    next.HasHeading := by
  obtain ⟨heading, hcreated, hpc⟩ := hheading
  have hgrows : s.createdThreads ≤ next.createdThreads := by
    rcases hturn.crew with hexpires | ⟨k, hhires, -⟩
    · exact hexpires.createdThreads.ge
    · rw [hhires.createdThreads]
      exact Nat.le_add_right _ _
  obtain ⟨-, worker, hworker⟩ := hturn.worker
  by_cases hself : heading = thread
  · subst hself
    cases hturn with
    | pass hpass hpasses =>
        obtain ⟨activations, hworker⟩ := hpasses.worker
        refine ⟨heading, hcreated.trans_le hgrows, ?_⟩
        rw [hworker, Function.update_self]
        generalize (s.worker heading).pc = before at hpass hpc
        cases hpass with
        | dispatch wasBusy => simp [hbefore, WorkerPc.isHeading]
        | enter | wake | work | report => rfl
        | rest _ hof | leave _ hof =>
            rcases hof with rfl | rfl <;> cases hpc
        | skip | block | wait => cases hpc
    | again =>
        refine ⟨heading, hcreated.trans_le hgrows, ?_⟩
        rw [State.pc_moveTo]
        rfl
    | expire _ _ hworking | assign _ _ hworking | wait _ _ hworking =>
        rw [hbefore] at hworking
        cases hworking
    | suspend =>
        have hsuspended := (State.stateId_setStateP _ .suspended).symm.trans hafter
        cases hsuspended
    | drop _ _ hothers =>
        refine hnext.hasHeading fun hzero => hothers ⟨hzero, hbefore⟩
  · refine ⟨heading, hcreated.trans_le hgrows, ?_⟩
    rw [hworker, Function.update_of_ne hself]
    exact hpc

/-- **While the weaver is suspending, some worker heads for its application.** -/
private theorem hasHeading_step (hnext : next.Accounted)
    (husable : s.Usable) (hok : SuspendsNoticed s action)
    (h : s.stateId = .suspending → s.HasHeading)
    (hstep : Weaver.step S s action = some next) :
    next.stateId = .suspending → next.HasHeading := by
  intro hafter
  cases step_turn hstep with
  | enqueue jobs _ =>
      obtain ⟨k, hcall⟩ := s.queueCall_enqueueP S jobs
      exact heading_of_wakes (h (hcall.stateId ▸ hafter)) hcall.wakes
        (hcall.hires.createdThreads ▸ Nat.le_add_right _ _)
  | call hcall _ _ =>
      exact heading_of_wakes (h (hcall.stateId ▸ hafter)) hcall.wakes
        (hcall.hires.createdThreads ▸ Nat.le_add_right _ _)
  | resize cap _ =>
      obtain ⟨k, hcall, -⟩ := s.queueCall_setMaximumNumberOfThreadsP cap
      have hbefore : s.stateId = .suspending := hcall.stateId.symm.trans hafter
      exact heading_of_wakes (h hbefore) hcall.wakes
        (hcall.hires.createdThreads ▸ Nat.le_add_right _ _)
  | begin _ hbegun =>
      exact heading_of_wakes (h (hbegun.stateId ▸ hafter)) (.inl hbegun.worker)
        hbegun.crew.2.2.ge
  | @setState caller id hcaller =>
      rw [State.stateId_setStateP] at hafter
      subst hafter
      have hwakes := (s.setCaller caller .idle).wakesFrom_setStateP .suspending
      have hcreated := (State.createdThreads_setStateP (s.setCaller caller .idle) .suspending).ge
      by_cases hbefore : s.stateId = .suspending
      · exact heading_of_wakes (h hbefore) hwakes hcreated
      · -- all workers are woken
        obtain ⟨thread, hthread, hnotices⟩ := hok.2 caller rfl hcaller hbefore
        refine ⟨thread, hthread.trans_le hcreated, ?_⟩
        have hchanges : (s.setCaller caller .idle).stateId ≠ .suspending := hbefore
        rw [State.setStateP_eq, if_neg hchanges]
        exact Worker.heading_wake hnotices
  | reschedule _ => exact heading_of_wakes (h hafter) (.inr rfl) le_rfl
  | finish _ _ => exact heading_of_wakes (h hafter) (.inl rfl) le_rfl
  | @shutDown caller rest _ hcaller _ =>
      have hkeeps := husable.keepsQueue caller
      rw [hcaller] at hkeeps
      cases hkeeps
  | worker hthread hturn =>
      have hbefore : s.stateId = .suspending := by
        simp only [Weaver.step, Option.ite_none_right_eq_some] at hstep
        rcases workerStep_control hstep.2 with hcontrol | ⟨hbefore, _⟩
        · exact (congrArg Prod.fst hcontrol).symm.trans hafter
        · exact hbefore
      exact heading_of_turn hnext (h hbefore) hthread hturn hbefore hafter

/-- **Suspension completes** in every run in which some worker notices each suspension. -/
theorem suspension_completes (hrun : Runs S SuspendsNoticed start s) : ¬ s.StuckSuspending := by
  have hkeeps : ∀ {s : State J P T σ ε}, Runs S SuspendsNoticed start s →
      Runs S KeepsRunning start s := fun h => h.mono fun _ _ hok => hok.1
  have hheading : s.stateId = .suspending → s.HasHeading := by
    induction hrun with
    | refl => exact fun h => by cases h
    | tail hrun hok hstep ih =>
        have hnext := runs_accounted_of_keepsRunning (hkeeps (hrun.tail hok hstep))
        exact hasHeading_step hnext (runs_usable (fun _ _ h => h.1) hrun) hok ih hstep
  intro hstuck
  obtain ⟨thread, hthread, hpc⟩ := hheading hstuck.suspending
  rcases (runs_manned (hkeeps hrun)).listed thread hthread with hmem | hexited
  · rw [WorkerPc.isHeading_eq_false (hstuck.blocked thread hmem)] at hpc
    cases hpc
  · rw [hexited] at hpc
    cases hpc

end Steps

instance [DecidableEq T] [Fintype T] [DecidableEq J] [DecidableEq P] [DecidableEq ε]
    (s : State J P T σ ε) (action : Act J P T ε) : Decidable (SuspendsNoticed s action) :=
  inferInstanceAs (Decidable (_ ∧ ∀ _, _))

/-- The worker that waits is woken by the suspension and completes it. -/
theorem suspension_completes_woken : ∃ s : State ℕ Unit Unit (Unit → ℕ) Empty,
    s.stateId = .suspending ∧ s.caller () = .idle ∧ s.active = 0 ∧
      (s.worker 0).pc = .woken false ∧ ¬ s.StuckSuspending := by
  obtain ⟨s, hrun, hstate⟩ : ∃ s : State ℕ Unit Unit (Unit → ℕ) Empty,
      Runs numbered SuspendsNoticed (.plain fun _ => 0) s ∧ _ :=
    Library.exists_runWhere
      (fun s => s.stateId = .suspending ∧ s.caller () = .idle ∧ s.active = 0 ∧
        (s.worker 0).pc = .woken false)
      [.setMaximumNumberOfThreads 1, .enqueue [some 0], .dequeue 0, .worker 0, .worker 0,
        .worker 0, .suspend (), .proceed ()] (by decide)
  obtain ⟨hsuspending, hidle, hinactive, hwoken⟩ := hstate
  exact ⟨s, hsuspending, hidle, hinactive, hwoken, suspension_completes hrun⟩

/-- **A suspension can get stuck.**  There is no worker that could suspend the weaver. -/
theorem suspension_stuck : ∃ s : State ℕ Unit Unit (Unit → ℕ) Empty,
    Runs numbered KeepsRunning (.plain fun _ => 0) s ∧ s.StuckSuspending ∧
      .suspended ∉ s.log := by
  obtain ⟨s, hrun, hsuspending, hinactive, hidle, hinventory, hlog⟩ :
      ∃ s : State ℕ Unit Unit (Unit → ℕ) Empty,
        Runs numbered KeepsRunning (.plain fun _ => 0) s ∧ _ :=
    Library.exists_runWhere
      (fun s => s.stateId = .suspending ∧ s.active = 0 ∧ s.caller () = .idle ∧
        s.inventory = [] ∧ .suspended ∉ s.log)
      [.suspend (), .proceed ()] (by decide)
  refine ⟨s, hrun, ⟨hsuspending, hinactive, fun _ => hidle, ?_⟩, hlog⟩
  simp [hinventory]

end ThreadWeaver.Weaver
