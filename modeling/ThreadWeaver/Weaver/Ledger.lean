import ThreadWeaver.Weaver.Scan
import Mathlib.Data.List.ReduceOption

/-!
# The ledger of the queue

What the weaver is for, apart from how its threads wait and wake each other: jobs wait in a
list, are handed to workers and come to their end.  `Ledger` is the part of the state that
says where the jobs are, and `Move` lists the ways in which it changes.  Every step of the
weaver is a sequence of moves of its ledger (`step_moves`), so a property of all runs that
only speaks of the ledger has one case for each move.
-/

namespace ThreadWeaver.Weaver

variable {J P T σ ε : Type*}

/-- The part of the state of the weaver that says where the jobs are. -/
structure Ledger (J P σ ε : Type*) where
  assignments : List J
  status : J → Status
  queuePolicies : J → List P
  policyState : σ
  work : ℕ → Option (J × Phase)
  log : List (Event J P ε)

/-- The job a thread has been handed and how far it has got with it. -/
def WorkerPc.work? : WorkerPc J → Option (J × Phase)
  | busy job phase => some (job, phase)
  | _ => none

theorem WorkerPc.work?_eq_some {pc : WorkerPc J} {job : J} {phase : Phase} :
    pc.work? = some (job, phase) ↔ pc = .busy job phase := by
  cases pc <;> simp [work?]

/-- The event says nothing about a job or a policy. -/
def Event.isNote : Event J P ε → Bool
  | finished | suspended | stateChanged _ | deleted _ => true
  | _ => false

/-- The ledger of a state of the weaver. -/
def State.ledger (s : State J P T σ ε) : Ledger J P σ ε where
  assignments := s.assignments
  status := s.status
  queuePolicies := s.queuePolicies
  policyState := s.policyState
  work thread := (s.worker thread).pc.work?
  log := s.log

namespace Ledger

/-- The worker `thread` is now at `work`. -/
def setWork (thread : ℕ) (work : Option (J × Phase)) (l : Ledger J P σ ε) : Ledger J P σ ε :=
  { l with work := Function.update l.work thread work }

/-- An event that happened. -/
def record (event : Event J P ε) (l : Ledger J P σ ε) : Ledger J P σ ε :=
  { l with log := l.log ++ [event] }

@[simp] theorem setWork_self {thread : ℕ} {work : Option (J × Phase)} {l : Ledger J P σ ε}
    (h : l.work thread = work) : l.setWork thread work = l := by
  subst h
  simp [setWork]

end Ledger

/-- What a program keeps to: with `onlyNew`, jobs are enqueued in `Status_New` only, as
`enqueue_p` asserts; `mayConfigure` restricts how it changes policies. -/
structure Discipline (J P σ ε : Type*) where
  onlyNew : Prop
  mayConfigure : Ledger J P σ ε → List (PolicyOp J P ε) → Prop

/-- No restriction. -/
def Discipline.none : Discipline J P σ ε := ⟨False, fun _ _ => True⟩

/-- Jobs are enqueued in `Status_New` only. -/
def Discipline.enqueuesNew : Discipline J P σ ε := ⟨True, fun _ _ => True⟩

namespace Ledger

/-- The ways in which a ledger changes. -/
inductive Move [DecidableEq J] [DecidableEq P] (S : Setup J P σ ε) (D : Discipline J P σ ε)
    (l : Ledger J P σ ε) : Ledger J P σ ε → Prop
  | note (event : Event J P ε) : event.isNote → Move S D l (l.record event)
  | enqueue (job : J) : (D.onlyNew → l.status job = .new) →
      Move S D l
        { l with
          assignments := Library.insertFromBack S.priority job l.assignments
          status := Function.update l.status job .queued
          log := l.log ++ [.enqueued job] }
  | takeOut (job : J) : job ∈ l.assignments →
      Move S D l
        { l with
          assignments := l.assignments.erase job
          status := Function.update l.status job .new
          log := l.log ++ [.dequeued job] }
  | clear :
      Move S D l
        { l with
          assignments := []
          log := l.log ++ l.assignments.map .dequeued }
  | refuse {rest : List J} {state : σ} :
      State.scan S l.queuePolicies l.assignments l.policyState = (none, rest, state) →
      Move S D l { l with assignments := rest, policyState := state }
  | assign (thread : ℕ) {job : J} {rest : List J} {state : σ} : l.work thread = none →
      State.scan S l.queuePolicies l.assignments l.policyState = (some job, rest, state) →
      Move S D l
        { l with
          assignments := rest
          policyState := state
          work := Function.update l.work thread (some (job, .assigned))
          log := l.log ++ [.assigned thread job] }
  | prepare {thread : ℕ} {job : J} : l.work thread = some (job, .assigned) →
      Move S D l (l.setWork thread (some (job, .executing)))
  | begin {thread : ℕ} {job : J} : l.work thread = some (job, .executing) →
      Move S D l
        { l.setWork thread (some (job, .running)) with
          status := Function.update l.status job .running }
  | run {thread : ℕ} {job : J} : l.work thread = some (job, .running) →
      Move S D l
        { l.setWork thread (some (job, .ending)) with
          status := Function.update l.status job (S.outcome job).status }
  | finish {thread : ℕ} {job : J} : l.work thread = some (job, .ending) →
      Move S D l
        ((l.record (.ended job (l.status job))).setWork thread (some (job, .freeing 0)))
  | free {thread : ℕ} {job : J} {index : ℕ} {policy : P} :
      l.work thread = some (job, .freeing index) →
      (l.queuePolicies job)[index]? = some policy →
      Move S D l
        { l.setWork thread (some (job, .freeing (index + 1))) with
          policyState := S.policies.free policy job (l.status job) l.policyState }
  | freed {thread : ℕ} {job : J} {index : ℕ} : l.work thread = some (job, .freeing index) →
      (l.queuePolicies job)[index]? = none →
      Move S D l (l.setWork thread (some (job, .returned)))
  | leave {thread : ℕ} {job : J} : l.work thread = some (job, .returned) →
      Move S D l (l.setWork thread none)
  | configure (ops : List (PolicyOp J P ε)) : D.mayConfigure l ops →
      Move S D l
        { l with
          queuePolicies :=
            (ops.foldl (State.applyPolicyOp S) (l.queuePolicies, l.policyState)).1
          policyState := (ops.foldl (State.applyPolicyOp S) (l.queuePolicies, l.policyState)).2
          log := l.log ++ [.configured ops] }

/-- A move under one discipline is a move under another that allows the enqueueing or the
configuring it makes. -/
theorem Move.mono [DecidableEq J] [DecidableEq P] {S : Setup J P σ ε} {D D' : Discipline J P σ ε}
    {l l' : Ledger J P σ ε} (h : Move S D l l')
    (hnew : ∀ job, l'.log = l.log ++ [.enqueued job] → D'.onlyNew → D.onlyNew)
    (hmay : ∀ ops, l'.log = l.log ++ [.configured ops] → D.mayConfigure l ops →
      D'.mayConfigure l ops) : Move S D' l l' := by
  cases h with
  | note event hnote => exact .note event hnote
  | enqueue job hstatus => exact .enqueue job fun h => hstatus (hnew job rfl h)
  | takeOut job hmem => exact .takeOut job hmem
  | clear => exact .clear
  | refuse hscan => exact .refuse hscan
  | assign thread hidle hscan => exact .assign thread hidle hscan
  | prepare hwork => exact .prepare hwork
  | begin hwork => exact .begin hwork
  | run hwork => exact .run hwork
  | finish hwork => exact .finish hwork
  | free hwork hpolicy => exact .free hwork hpolicy
  | freed hwork hnone => exact .freed hwork hnone
  | leave hwork => exact .leave hwork
  | configure ops h => exact .configure ops (hmay ops rfl h)

/-- Any number of moves. -/
abbrev Moves [DecidableEq J] [DecidableEq P] (S : Setup J P σ ε) (D : Discipline J P σ ε) :
    Ledger J P σ ε → Ledger J P σ ε → Prop :=
  Relation.ReflTransGen (Move S D)

end Ledger

/-! ## Sections that leave the ledger alone -/

namespace State

variable (s : State J P T σ ε)

@[simp] theorem ledger_moveTo (thread : ℕ) (pc : WorkerPc J) :
    (s.moveTo thread pc).ledger = s.ledger.setWork thread pc.work? := by
  simp only [ledger, moveTo, Ledger.setWork, Ledger.mk.injEq, true_and, and_true]
  funext other
  by_cases h : other = thread
  · subst h
    simp
  · simp [h]

@[simp] theorem ledger_returnTo (thread : ℕ) (pc : WorkerPc J) :
    (s.returnTo thread pc).ledger = s.ledger.setWork thread pc.work? := by
  simp only [ledger, returnTo, Ledger.setWork, Ledger.mk.injEq, true_and, and_true]
  funext other
  by_cases h : other = thread
  · subst h
    simp
  · simp [h]

@[simp] theorem ledger_record (event : Event J P ε) :
    (s.record event).ledger = s.ledger.record event := rfl

@[simp] theorem ledger_createThread : s.createThread.ledger = s.ledger := rfl

@[simp] theorem ledger_adjustInventory (n : ℕ) : (s.adjustInventory n).ledger = s.ledger := by
  unfold adjustInventory
  induction min (s.inventoryMax - s.inventory.length) n with
  | zero => rfl
  | succ k ih =>
      rw [Function.iterate_succ_apply', ledger_createThread, ih]

@[simp] theorem worker_adjustInventory (n : ℕ) : (s.adjustInventory n).worker = s.worker := by
  unfold adjustInventory
  induction min (s.inventoryMax - s.inventory.length) n with
  | zero => rfl
  | succ k ih =>
      rw [Function.iterate_succ_apply']
      exact ih

theorem worker_enterTakeFirst (threadWasBusy : Bool) :
    (s.enterTakeFirst threadWasBusy).worker = s.worker := by
  unfold enterTakeFirst
  dsimp only
  split
  · exact worker_adjustInventory s.deleteExpiredThreads 1
  · exact worker_adjustInventory s.deleteExpiredThreads 1

/-- Before it is decided what becomes of the thread, neither the list nor the policies
change. -/
theorem ledger_enterTakeFirst (threadWasBusy : Bool) :
    (s.enterTakeFirst threadWasBusy).assignments = s.assignments ∧
      (s.enterTakeFirst threadWasBusy).queuePolicies = s.queuePolicies ∧
      (s.enterTakeFirst threadWasBusy).policyState = s.policyState := by
  have hledger := ledger_adjustInventory s.deleteExpiredThreads 1
  have hsame := And.intro (congrArg Ledger.assignments hledger)
    (And.intro (congrArg Ledger.queuePolicies hledger) (congrArg Ledger.policyState hledger))
  unfold enterTakeFirst
  dsimp only
  split
  · exact hsame
  · exact hsame

end State

@[simp] theorem Worker.work?_wake (worker : Worker J) :
    worker.wake.pc.work? = worker.pc.work? := by
  unfold Worker.wake
  split
  · rename_i hpc
    rw [hpc]
    rfl
  · rfl

@[simp] theorem State.ledger_reschedule (s : State J P T σ ε) :
    s.reschedule.ledger = s.ledger := by
  simp [ledger, reschedule]

/-! ## Every step moves the ledger -/

section Moves

open Ledger

variable [DecidableEq J] [DecidableEq P] {S : Setup J P σ ε} {D : Discipline J P σ ε}

theorem record_moves {event : Event J P ε} (hnote : event.isNote) (s : State J P T σ ε) :
    Moves S D s.ledger (s.record event).ledger :=
  .single (.note event hnote)

theorem setStateP_moves (id : StateId) (s : State J P T σ ε) :
    Moves S D s.ledger (s.setStateP id).ledger := by
  have hactivated : (State.activated id { s with stateId := id }).ledger = s.ledger := by
    cases id <;> simp only [State.activated, State.ledger_reschedule] <;> rfl
  unfold State.setStateP
  split
  · exact .refl
  · dsimp only
    rw [← hactivated]
    split
    · exact (record_moves rfl _).trans (record_moves rfl _)
    · exact record_moves rfl _

theorem deleteExpiredThreads_moves (s : State J P T σ ε) :
    Moves S D s.ledger s.deleteExpiredThreads.ledger := by
  suffices h : ∀ (threads : List ℕ) (l : Ledger J P σ ε),
      Moves S D l { l with log := l.log ++ threads.map Event.deleted } from
    h s.expiredThreads s.ledger
  intro threads
  induction threads with
  | nil =>
      intro l
      simpa using Relation.ReflTransGen.refl
  | cons thread rest ih =>
      intro l
      have hrest := ih (l.record (.deleted thread))
      simp only [record, List.append_assoc, List.singleton_append] at hrest
      exact .head (.note (.deleted thread) rfl) hrest

omit [DecidableEq J] [DecidableEq P] in
theorem adjustActiveThreadCount_ledger (diff : ℤ) (s : State J P T σ ε) :
    (s.adjustActiveThreadCount diff).ledger = s.ledger ∨
      (s.adjustActiveThreadCount diff).ledger = s.ledger.record .finished := by
  by_cases h : s.assignments.isEmpty ∧ s.active + diff = 0
  · right
    simp [State.adjustActiveThreadCount, State.ledger, Ledger.record, h]
  · left
    simp only [State.adjustActiveThreadCount, if_neg h, State.ledger]

theorem adjustActiveThreadCount_moves (diff : ℤ) (s : State J P T σ ε) :
    Moves S D s.ledger (s.adjustActiveThreadCount diff).ledger := by
  rcases adjustActiveThreadCount_ledger diff s with hledger | hledger
  · rw [hledger]
  · rw [hledger]
    exact .single (.note .finished rfl)

/-! ### Enqueueing and dequeueing -/

/-- The jobs of a batch are new and no job comes twice, as `enqueue_p` asserts of each job
when its turn comes. -/
def State.FreshBatch (s : State J P T σ ε) (jobs : List (Option J)) : Prop :=
  jobs.reduceOption.Nodup ∧ ∀ job ∈ jobs.reduceOption, s.status job = .new

omit [DecidableEq P] in
instance (s : State J P T σ ε) (jobs : List (Option J)) : Decidable (s.FreshBatch jobs) :=
  inferInstanceAs (Decidable (_ ∧ _))

theorem enqueueJob_moves {n : ℕ} {job : J} {s : State J P T σ ε}
    (hnew : D.onlyNew → s.status job = .new) :
    Moves S D s.ledger (s.enqueueJob S n job).ledger := by
  have hadjusted := State.ledger_adjustInventory s n
  unfold State.enqueueJob
  rw [State.ledger_reschedule]
  rw [← hadjusted]
  refine .single (.enqueue job fun h => ?_)
  rw [hadjusted]
  exact hnew h

omit [DecidableEq P] in
theorem status_enqueueJob_of_ne {n : ℕ} {job other : J} (hne : other ≠ job)
    (s : State J P T σ ε) : (s.enqueueJob S n job).status other = s.status other := by
  have hadjusted : (s.adjustInventory n).status = s.status :=
    congrArg Ledger.status (State.ledger_adjustInventory s n)
  show Function.update (s.adjustInventory n).status job .queued other = s.status other
  rw [Function.update_of_ne hne, hadjusted]

theorem enqueueP_moves {jobs : List (Option J)} {s : State J P T σ ε}
    (hfresh : D.onlyNew → s.FreshBatch jobs) :
    Moves S D s.ledger (s.enqueueP S jobs).ledger := by
  unfold State.enqueueP
  generalize jobs.length = n
  induction jobs generalizing s with
  | nil => exact .refl
  | cons head rest ih =>
      cases head with
      | none =>
          refine ih fun h => ?_
          simpa [State.FreshBatch, List.reduceOption_cons_of_none] using hfresh h
      | some job =>
          have hbatch : D.onlyNew → (job ∉ rest.reduceOption ∧ rest.reduceOption.Nodup) ∧
              s.status job = .new ∧ ∀ other ∈ rest.reduceOption, s.status other = .new := by
            intro h
            simpa [State.FreshBatch, List.reduceOption_cons_of_some] using hfresh h
          refine (enqueueJob_moves fun h => (hbatch h).2.1).trans (ih fun h => ?_)
          refine ⟨(hbatch h).1.2, fun other hother => ?_⟩
          rw [status_enqueueJob_of_ne (ne_of_mem_of_not_mem hother (hbatch h).1.1)]
          exact (hbatch h).2.2 other hother

omit [DecidableEq P] in
theorem mem_takeOut_of_ne {job other : J} (hne : other ≠ job) {s : State J P T σ ε} :
    other ∈ (s.takeOut job).assignments ↔ other ∈ s.assignments :=
  List.mem_erase_of_ne hne

/-- The hook of a job, and the dequeueings it makes in turn, take jobs out one by one and
never the job itself. -/
theorem dequeueNested_moves (depth : ℕ) (job : J) (s : State J P T σ ε) :
    Moves S D s.ledger (s.dequeueNested S depth job).2.ledger ∧
      ∀ kept, S.hookRank job < S.hookRank kept →
        (kept ∈ (s.dequeueNested S depth job).2.assignments ↔ kept ∈ s.assignments) := by
  induction depth generalizing job s with
  | zero =>
      unfold State.dequeueNested
      split
      · rename_i hmem
        refine ⟨.single (.takeOut job hmem), fun kept hrank => mem_takeOut_of_ne ?_⟩
        rintro rfl
        exact lt_irrefl _ hrank
      · exact ⟨.refl, fun kept _ => Iff.rfl⟩
  | succ depth ih =>
      -- the hook: a fold over jobs of lower rank
      have hhook : ∀ (others : List J) (s : State J P T σ ε),
          (∀ other ∈ others, S.hookRank other < S.hookRank job) →
          Moves S D s.ledger
              (others.foldl (fun s other => (s.dequeueNested S depth other).2) s).ledger ∧
            ∀ kept, S.hookRank job ≤ S.hookRank kept →
              (kept ∈ (others.foldl (fun s other => (s.dequeueNested S depth other).2) s).assignments
                ↔ kept ∈ s.assignments) := by
        intro others
        induction others with
        | nil => exact fun s _ => ⟨.refl, fun kept _ => Iff.rfl⟩
        | cons other rest ihrest =>
            intro s hrank
            rw [List.forall_mem_cons] at hrank
            obtain ⟨hmoves, hkeeps⟩ := ih other s
            obtain ⟨hmoves', hkeeps'⟩ := ihrest (s.dequeueNested S depth other).2 hrank.2
            refine ⟨hmoves.trans hmoves', fun kept hkept => ?_⟩
            exact (hkeeps' kept hkept).trans (hkeeps kept (hrank.1.trans_le hkept))
      unfold State.dequeueNested
      split
      · rename_i hmem
        obtain ⟨hmoves, hkeeps⟩ := hhook _ s (S.hookRank_lt job)
        refine ⟨hmoves.tail (.takeOut job ((hkeeps job le_rfl).mpr hmem)), fun kept hrank => ?_⟩
        rw [mem_takeOut_of_ne]
        · exact hkeeps kept hrank.le
        · rintro rfl
          exact lt_irrefl _ hrank
      · exact ⟨.refl, fun kept _ => Iff.rfl⟩

theorem dequeueP_moves (job : J) (s : State J P T σ ε) :
    Moves S D s.ledger (s.dequeueP S job).2.ledger :=
  (dequeueNested_moves _ job s).1

theorem runHook_moves (job : J) (s : State J P T σ ε) :
    Moves S D s.ledger (s.runHook S job).ledger := by
  unfold State.runHook
  induction S.aboutToBeDequeued job generalizing s with
  | nil => exact .refl
  | cons other rest ih => exact (dequeueP_moves other s).trans (ih _)

theorem dequeueAllP_moves (s : State J P T σ ε) :
    Moves S D s.ledger (s.dequeueAllP S).ledger := by
  have hloop : ∀ fuel index (s : State J P T σ ε),
      Moves S D s.ledger (s.dequeueLoop S fuel index).ledger := by
    intro fuel
    induction fuel with
    | zero => exact fun index s => .refl
    | succ fuel ih =>
        intro index s
        unfold State.dequeueLoop
        split
        · exact .refl
        · exact (runHook_moves _ s).trans (ih _ _)
  exact (hloop _ _ s).tail .clear

omit [DecidableEq J] [DecidableEq P] in
theorem setMaximumNumberOfThreadsP_ledger (cap : ℕ) (s : State J P T σ ε) :
    (s.setMaximumNumberOfThreadsP cap).ledger = s.ledger := by
  unfold State.setMaximumNumberOfThreadsP
  rw [State.ledger_reschedule]
  split
  · rw [State.ledger_adjustInventory]
    rfl
  · rfl

theorem unlessDestructed_moves {f : State J P T σ ε → State J P T σ ε} {s : State J P T σ ε}
    (h : Moves S D s.ledger (f s).ledger) :
    Moves S D s.ledger (unlessDestructed f s).ledger := by
  unfold unlessDestructed
  split
  · exact .refl
  · exact h

/-! ### Workers -/

/-- What a reply of `takeFirstAvailableJobOrSuspendOrWait` hands to the worker. -/
def State.Reply.work? : State.Reply J → Option (J × Phase)
  | .job handed => some (handed, .assigned)
  | .null | .waits | .abortThread => none

theorem enterTakeFirst_moves (threadWasBusy : Bool) (s : State J P T σ ε) :
    Moves S D s.ledger (s.enterTakeFirst threadWasBusy).ledger := by
  refine (deleteExpiredThreads_moves s).trans ?_
  rw [← State.ledger_adjustInventory s.deleteExpiredThreads 1]
  unfold State.enterTakeFirst
  dsimp only
  split
  · exact adjustActiveThreadCount_moves _ _
  · exact .refl

theorem takeFirstAvailableJobOrSuspendOrWait_moves {thread : ℕ} {s : State J P T σ ε}
    (hidle : s.ledger.work thread = none)
    (threadWasBusy suspendIfInactive justReturning : Bool) :
    let taken := s.takeFirstAvailableJobOrSuspendOrWait S thread threadWasBusy suspendIfInactive
      justReturning
    Moves S D s.ledger (taken.2.ledger.setWork thread taken.1.work?) := by
  have hbefore : Moves S D _ _ := enterTakeFirst_moves threadWasBusy s
  have hidle₁ : (s.enterTakeFirst threadWasBusy).ledger.work thread = none := by
    have hworker := State.worker_enterTakeFirst s threadWasBusy
    simpa [State.ledger, hworker] using hidle
  unfold State.takeFirstAvailableJobOrSuspendOrWait
  dsimp only
  generalize s.enterTakeFirst threadWasBusy = s₁ at hbefore hidle₁
  split
  · -- the last active thread suspends the weaver
    refine hbefore.trans ?_
    have hkept : (s₁.setStateP .suspended).ledger.work thread = none := by
      unfold State.setStateP State.activated
      split
      · exact hidle₁
      · exact hidle₁
    show Moves S D _ (setWork thread none _)
    rw [setWork_self hkept]
    exact setStateP_moves _ _
  · split
    · show Moves S D _ (setWork thread none s₁.ledger)
      rw [setWork_self hidle₁]
      exact hbefore
    · split
      · show Moves S D _ (setWork thread none s₁.ledger)
        rw [setWork_self hidle₁]
        exact hbefore
      · split
        · rename_i job hjob
          refine (hbefore.tail (.assign thread hidle₁ (Prod.ext hjob rfl))).trans ?_
          show Moves S D _ (setWork thread (some (job, .assigned))
            (State.adjustActiveThreadCount 1 _).ledger)
          rcases adjustActiveThreadCount_ledger 1 (State.record (.assigned thread job)
            { s₁ with
              assignments := (State.scan S s₁.queuePolicies s₁.assignments s₁.policyState).2.1
              policyState := (State.scan S s₁.queuePolicies s₁.assignments s₁.policyState).2.2 })
            with hledger | hledger
          · rw [hledger]
            exact .refl
          · rw [hledger]
            exact .single (.note .finished rfl)
        · rename_i hnone
          refine hbefore.tail ?_
          show Move S D _ (setWork thread none _)
          rw [setWork_self (by exact hidle₁)]
          exact .refuse (Prod.ext hnone rfl)

theorem workingHardApplyForWork_moves {thread : ℕ} {s : State J P T σ ε}
    (hidle : s.ledger.work thread = none) (wasBusy : Bool) :
    Moves S D s.ledger (s.workingHardApplyForWork S thread wasBusy).ledger := by
  have htake : Moves S D _ _ :=
    takeFirstAvailableJobOrSuspendOrWait_moves hidle wasBusy false false
  unfold State.workingHardApplyForWork
  dsimp only at htake ⊢
  split <;> rename_i hreply <;> rw [hreply] at htake
  · rw [State.ledger_returnTo]
    exact htake
  · rw [State.ledger_moveTo]
    exact htake
  · rw [State.ledger_moveTo]
    exact htake
  · rw [State.ledger_returnTo]
    exact htake

omit [DecidableEq J] [DecidableEq P] in
/-- A thread that is just returning is handed nothing. -/
theorem takeFirstAvailableJobOrSuspendOrWait_justReturning (thread : ℕ)
    (threadWasBusy suspendIfInactive : Bool) (s : State J P T σ ε) :
    (s.takeFirstAvailableJobOrSuspendOrWait S thread threadWasBusy suspendIfInactive true).1 =
      .null := by
  simp only [State.takeFirstAvailableJobOrSuspendOrWait, or_true, if_true, apply_ite Prod.fst,
    ite_self]

theorem suspendingApplyForWork_moves {thread : ℕ} {s : State J P T σ ε}
    (hidle : s.ledger.work thread = none) (wasBusy : Bool) :
    Moves S D s.ledger (s.suspendingApplyForWork S thread wasBusy).ledger := by
  have htake : Moves S D _ _ :=
    takeFirstAvailableJobOrSuspendOrWait_moves hidle wasBusy true true
  have hreply := takeFirstAvailableJobOrSuspendOrWait_justReturning (S := S) thread wasBusy
    true s
  unfold State.suspendingApplyForWork
  dsimp only at htake ⊢
  rw [hreply] at htake ⊢
  rw [State.ledger_moveTo]
  exact htake

/-- A step of a worker that only moves from one position without a job to another. -/
private theorem idle_moves {thread : ℕ} {pc : WorkerPc J} {s : State J P T σ ε}
    (hbefore : s.ledger.work thread = none) (hafter : pc.work? = none) :
    Moves S D s.ledger (s.moveTo thread pc).ledger := by
  rw [State.ledger_moveTo, hafter, setWork_self hbefore]

theorem workerStep_moves {thread : ℕ} {s next : State J P T σ ε}
    (hstep : workerStep S thread s = some next) : Moves S D s.ledger next.ledger := by
  have hwork : s.ledger.work thread = (s.worker thread).pc.work? := rfl
  cases hpc : (s.worker thread).pc with
  | started =>
      simp only [workerStep, hpc, Option.some.injEq] at hstep
      subst hstep
      exact idle_moves (s := { s with semaphore := s.semaphore + 1 }) (hwork.trans (hpc ▸ rfl)) rfl
  | applyForWork wasBusy =>
      simp only [workerStep, hpc, Option.some.injEq] at hstep
      subst hstep
      have hledger : (State.ledger { s with
          worker := Function.update s.worker thread
            ⟨.dispatched s.stateId wasBusy, (s.worker thread).activations + 1⟩ }) =
          (s.moveTo thread (.dispatched s.stateId wasBusy)).ledger := by
        simp only [State.ledger, State.moveTo, Ledger.mk.injEq, true_and, and_true]
        funext other
        by_cases h : other = thread
        · subst h
          simp
        · simp [h]
      rw [hledger]
      exact idle_moves (hwork.trans (hpc ▸ rfl)) rfl
  | dispatched id wasBusy =>
      have hidle : s.ledger.work thread = none := hwork.trans (hpc ▸ rfl)
      cases id with
      | workingHard =>
          simp only [workerStep, hpc, Option.ite_none_right_eq_some, Option.some.injEq] at hstep
          exact hstep.2 ▸ workingHardApplyForWork_moves hidle wasBusy
      | suspending =>
          simp only [workerStep, hpc, Option.ite_none_right_eq_some, Option.some.injEq] at hstep
          exact hstep.2 ▸ suspendingApplyForWork_moves hidle wasBusy
      | suspended | inConstruction =>
          simp only [workerStep, hpc, Option.some.injEq] at hstep
          exact hstep ▸ idle_moves hidle rfl
      | shuttingDown | destructed =>
          simp only [workerStep, hpc, Option.some.injEq] at hstep
          subst hstep
          rw [State.ledger_returnTo, WorkerPc.work?, setWork_self hidle]
          simp
  | waitForAvailableJob wasBusy =>
      simp only [workerStep, hpc, Option.some.injEq] at hstep
      subst hstep
      refine idle_moves (hwork.trans (hpc ▸ rfl)) ?_
      split <;> rfl
  | blockThread wasBusy | woken wasBusy =>
      simp only [workerStep, hpc, Option.some.injEq] at hstep
      exact hstep ▸ idle_moves (hwork.trans (hpc ▸ rfl)) rfl
  | waiting wasBusy | exited =>
      simp [workerStep, hpc] at hstep
  | busy job phase =>
      have hbusy : s.ledger.work thread = some (job, phase) := hwork.trans (hpc ▸ rfl)
      cases phase with
      | assigned =>
          simp only [workerStep, hpc, Option.some.injEq] at hstep
          rw [← hstep, State.ledger_moveTo]
          exact .single (.prepare hbusy)
      | executing =>
          simp only [workerStep, hpc, Option.some.injEq] at hstep
          rw [← hstep, State.ledger_moveTo]
          exact .single (.begin hbusy)
      | running =>
          simp only [workerStep, hpc, Option.some.injEq] at hstep
          rw [← hstep, State.ledger_moveTo]
          exact .single (.run hbusy)
      | ending =>
          simp only [workerStep, hpc, Option.some.injEq] at hstep
          rw [← hstep, State.ledger_moveTo]
          exact .single (.finish hbusy)
      | freeing index =>
          cases hpolicy : (s.queuePolicies job)[index]? with
          | some policy =>
              simp only [workerStep, hpc, hpolicy, Option.some.injEq] at hstep
              rw [← hstep, State.ledger_moveTo]
              exact .single (.free hbusy hpolicy)
          | none =>
              simp only [workerStep, hpc, hpolicy, Option.some.injEq] at hstep
              rw [← hstep, State.ledger_moveTo]
              exact .single (.freed hbusy hpolicy)
      | returned =>
          simp only [workerStep, hpc, Option.some.injEq] at hstep
          rw [← hstep, State.ledger_moveTo]
          exact .single (.leave hbusy)

/-! ### Calls -/

section Calls

variable [DecidableEq T] {s next : State J P T σ ε}

omit [DecidableEq J] [DecidableEq P] in
@[simp] theorem ledger_setCaller (caller : T) (pc : CallerPc) :
    (s.setCaller caller pc).ledger = s.ledger := rfl

theorem shutDownStep_moves {caller : T} {rest : ShutDownPc}
    (hstep : shutDownStep caller s rest = some next) : Moves S D s.ledger next.ledger := by
  cases rest with
  | acquire | finish =>
      simp only [shutDownStep, Option.ite_none_right_eq_some, Option.some.injEq] at hstep
      rw [← hstep.2]
      exact .refl
  | suspend =>
      rw [← Option.some.inj hstep]
      exact .refl
  | setSuspending | setShuttingDown | setDestructed =>
      rw [← Option.some.inj hstep]
      exact setStateP_moves _ (s.setCaller caller _)
  | reschedule =>
      rw [← Option.some.inj hstep, State.ledger_reschedule, ledger_setCaller]
  | collect =>
      simp only [shutDownStep] at hstep
      split at hstep
      · rw [← Option.some.inj hstep]
        exact .refl
      · rw [← Option.some.inj hstep]
        exact .refl
  | join thread =>
      simp only [shutDownStep] at hstep
      split at hstep
      · rw [← Option.some.inj hstep]
        exact record_moves rfl (s.setCaller caller _)
      · rw [← Option.some.inj hstep, State.ledger_reschedule]

theorem callerStep_moves {caller : T} (hstep : callerStep caller s = some next) :
    Moves S D s.ledger next.ledger := by
  unfold callerStep at hstep
  split at hstep
  · cases hstep
  · rw [← Option.some.inj hstep]
    exact setStateP_moves _ (s.setCaller caller .idle)
  · rw [← Option.some.inj hstep, State.ledger_reschedule, ledger_setCaller]
  · split at hstep
    · rw [← Option.some.inj hstep, ledger_setCaller]
    · cases hstep
  · exact shutDownStep_moves hstep

omit [DecidableEq J] [DecidableEq P] in
theorem ledger_beginCall {caller : T} {pc : CallerPc} (h : beginCall caller pc s = some next) :
    next.ledger = s.ledger := by
  unfold beginCall at h
  split at h
  · rw [← Option.some.inj h]
    rfl
  · cases h

/-- The batch that a step enqueues. -/
def Act.batch? : Act J P T ε → Option (List (Option J))
  | .enqueue jobs => some jobs
  | _ => none

/-- The condition on a step that a batch is enqueued in `Status_New` only. -/
def EnqueuesNew (s : State J P T σ ε) (action : Act J P T ε) : Prop :=
  ∀ jobs ∈ action.batch?, s.FreshBatch jobs

omit [DecidableEq P] [DecidableEq T] in
instance (s : State J P T σ ε) (action : Act J P T ε) : Decidable (EnqueuesNew s action) :=
  inferInstanceAs (Decidable (∀ _ ∈ _, _))

/-- The operations on policies of a step. -/
def Act.ops? : Act J P T ε → Option (List (PolicyOp J P ε))
  | .configure _ ops | .configureFromJob _ ops => some ops
  | _ => none

/-- The step keeps to the discipline. -/
def Discipline.Allows (D : Discipline J P σ ε) (s : State J P T σ ε) (action : Act J P T ε) :
    Prop :=
  (D.onlyNew → EnqueuesNew s action) ∧ ∀ ops ∈ action.ops?, D.mayConfigure s.ledger ops

omit [DecidableEq J] [DecidableEq P] [DecidableEq T] in
theorem Discipline.none_allows (s : State J P T σ ε) (action : Act J P T ε) :
    Discipline.none.Allows s action :=
  ⟨fun h => h.elim, fun _ _ => trivial⟩

omit [DecidableEq J] [DecidableEq P] [DecidableEq T] in
theorem Discipline.enqueuesNew_allows {action : Act J P T ε} (h : EnqueuesNew s action) :
    Discipline.enqueuesNew.Allows s action :=
  ⟨fun _ => h, fun _ _ => trivial⟩

/-- **Every step of the weaver is a sequence of moves of its ledger.** -/
theorem step_moves {action : Act J P T ε} (hallows : D.Allows s action)
    (hstep : step S s action = some next) : Moves S D s.ledger next.ledger := by
  cases action with
  | enqueue jobs =>
      rw [← Option.some.inj hstep]
      exact unlessDestructed_moves (enqueueP_moves fun h => hallows.1 h jobs rfl)
  | dequeue job =>
      rw [← Option.some.inj hstep, State.dequeue_snd]
      exact unlessDestructed_moves (dequeueP_moves job s)
  | dequeueAll =>
      rw [← Option.some.inj hstep]
      exact unlessDestructed_moves (dequeueAllP_moves s)
  | setMaximumNumberOfThreads cap =>
      rw [← Option.some.inj hstep]
      refine unlessDestructed_moves ?_
      rw [setMaximumNumberOfThreadsP_ledger]
  | requestAbort =>
      rw [← Option.some.inj hstep]
      exact unlessDestructed_moves .refl
  | reschedule =>
      rw [← Option.some.inj hstep, State.ledger_reschedule]
  | suspend caller | resume caller | finish caller | shutDown caller =>
      rw [ledger_beginCall hstep]
  | configure caller ops =>
      obtain ⟨begun, hbegun, rfl⟩ := Option.map_eq_some_iff.mp hstep
      have hmay := hallows.2 ops rfl
      rw [← ledger_beginCall hbegun] at hmay ⊢
      exact .single (.configure ops hmay)
  | configureFromJob thread ops =>
      simp only [step, Option.ite_none_right_eq_some, Option.some.injEq] at hstep
      rw [← hstep.2]
      exact .single (.configure ops (hallows.2 ops rfl))
  | proceed caller => exact callerStep_moves hstep
  | timeout caller =>
      simp only [step, Option.ite_none_right_eq_some, Option.some.injEq] at hstep
      rw [← hstep.2, State.ledger_reschedule]
  | worker thread =>
      simp only [step, Option.ite_none_right_eq_some] at hstep
      exact workerStep_moves hstep.2

/-- A run of the weaver whose steps keep to the discipline moves its ledger from the initial
one. -/
theorem runs_moves {ok : State J P T σ ε → Act J P T ε → Prop} {start : Start J P σ}
    (hok : ∀ s action, ok s action → D.Allows s action) (hrun : Runs S ok start s) :
    Moves S D (init (T := T) S start).ledger s.ledger :=
  hrun.simulation fun _ _ _ h hstep => step_moves (hok _ _ h) hstep

end Calls

end Moves

end ThreadWeaver.Weaver
