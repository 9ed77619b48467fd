import ThreadWeaver.Weaver.Threads
import Mathlib.Data.Finset.Card
import Mathlib.Data.Finset.Range
import Mathlib.Data.Fintype.Basic

/-!
# The active count

`active` is the number of workers that have been handed a job and have not reported it back,
wherever they are between the sections of the weaver.  A worker reports in whichever state
object it has read the pointer of, so the tally is kept for every position of a worker and
its flag; that it is 0 in the states in which no job is handed out follows from it.
-/

namespace ThreadWeaver.Weaver

variable {J P T σ ε : Type*}

/-- The thread has been handed a job and has not reported it back. -/
def WorkerPc.owes : WorkerPc J → Bool
  | busy _ _ => true
  | applyForWork wasBusy | dispatched _ wasBusy | waitForAvailableJob wasBusy
  | blockThread wasBusy | waiting wasBusy | woken wasBusy => wasBusy
  | started | exited => false

@[simp] theorem Worker.owes_wake (worker : Worker J) :
    worker.wake.pc.owes = worker.pc.owes := by
  obtain ⟨pc, activations⟩ := worker
  cases pc <;> rfl

@[simp] theorem Worker.started_wake (worker : Worker J) :
    worker.wake.pc = .started ↔ worker.pc = .started := by
  obtain ⟨pc, activations⟩ := worker
  cases pc <;> simp [Worker.wake]

/-- Outside of `takeFirstAvailableJobOrSuspendOrWait` a worker neither gets a job nor
reports one. -/
theorem WorkerPc.Next.owes {id : StateId} {pc later : WorkerPc J} (h : WorkerPc.Next id pc later)
    (hleave : ∀ of, pc ≠ .dispatched of true ∨ of ≠ .shuttingDown ∧ of ≠ .destructed) :
    later.owes = pc.owes := by
  cases h with
  | leave wasBusy hof =>
      rename_i of
      cases wasBusy with
      | false => rfl
      | true =>
          rcases hleave of with hne | ⟨hshutting, hdestructed⟩
          · exact absurd rfl hne
          · rcases hof with rfl | rfl
            · exact absurd rfl hshutting
            · exact absurd rfl hdestructed
  | _ => rfl

namespace State

/-- The workers that owe the weaver a report. -/
def owing (s : State J P T σ ε) : Finset ℕ :=
  (Finset.range s.createdThreads).filter fun thread => (s.worker thread).pc.owes

variable {s next : State J P T σ ε}

theorem mem_owing {thread : ℕ} :
    thread ∈ s.owing ↔ thread < s.createdThreads ∧ (s.worker thread).pc.owes := by
  simp [owing]

/-- The active count is right, and threads that have not been created have not started. -/
structure Tallied (s : State J P T σ ε) : Prop where
  active : s.active = s.owing.card
  started : ∀ thread, s.createdThreads ≤ thread → (s.worker thread).pc = .started

/-- New threads owe nothing. -/
theorem Tallied.owing_eq (h : s.Tallied) {k : ℕ}
    (hcreated : next.createdThreads = s.createdThreads + k)
    (howes : ∀ thread, (next.worker thread).pc.owes = (s.worker thread).pc.owes) :
    next.owing = s.owing := by
  ext thread
  rw [mem_owing, mem_owing, howes, hcreated]
  constructor
  · rintro ⟨-, hthread⟩
    refine ⟨lt_of_not_ge fun hnew => ?_, hthread⟩
    rw [h.started thread hnew] at hthread
    cases hthread
  · rintro ⟨hold, hthread⟩
    exact ⟨hold.trans_le (Nat.le_add_right _ _), hthread⟩

theorem Tallied.of_wakes (h : s.Tallied) {k : ℕ}
    (hcreated : next.createdThreads = s.createdThreads + k) (hwakes : next.WakesFrom s)
    (hactive : next.active = s.active) : next.Tallied where
  active := by
    have howes : ∀ thread, (next.worker thread).pc.owes = (s.worker thread).pc.owes := by
      intro thread
      rcases hwakes with hworker | hworker
      · rw [hworker]
      · rw [hworker, Worker.owes_wake]
    rw [hactive, h.owing_eq hcreated howes, h.active]
  started thread hthread := by
    have hnot := h.started thread (by omega)
    rcases hwakes with hworker | hworker
    · rw [hworker, hnot]
    · rw [hworker, Worker.started_wake, hnot]

/-- One worker moves, and the count follows. -/
theorem Tallied.update (h : s.Tallied) {k thread : ℕ} {worker : Worker J}
    (hthread : thread < s.createdThreads)
    (hcreated : next.createdThreads = s.createdThreads + k)
    (hworker : next.worker = Function.update s.worker thread worker)
    (hactive : next.active = s.active - (if (s.worker thread).pc.owes then 1 else 0) +
      if worker.pc.owes then 1 else 0) : next.Tallied where
  active := by
    -- the set of those that owe loses or gains the worker
    have herase : next.owing.erase thread = s.owing.erase thread := by
      ext other
      rw [Finset.mem_erase, Finset.mem_erase, mem_owing, mem_owing, hworker, hcreated]
      refine and_congr_right fun hne => ?_
      rw [Function.update_of_ne hne]
      constructor
      · rintro ⟨-, howes⟩
        refine ⟨lt_of_not_ge fun hnew => ?_, howes⟩
        rw [h.started other hnew] at howes
        cases howes
      · rintro ⟨hold, howes⟩
        exact ⟨hold.trans_le (Nat.le_add_right _ _), howes⟩
    have hcount : ∀ s : State J P T σ ε, thread < s.createdThreads →
        s.owing.card = (s.owing.erase thread).card +
          if (s.worker thread).pc.owes then 1 else 0 := by
      intro s hlt
      split
      · rename_i howes
        exact (Finset.card_erase_add_one (mem_owing.mpr ⟨hlt, howes⟩)).symm
      · rename_i howes
        rw [Finset.erase_eq_of_notMem fun hmem => howes (mem_owing.mp hmem).2]
        rfl
    have hbefore := hcount s hthread
    have hafter := hcount next (by omega)
    rw [herase, hworker, Function.update_self] at hafter
    have htally := h.active
    rw [hbefore] at htally
    rw [hactive, hafter, htally]
    cases (s.worker thread).pc.owes <;> cases worker.pc.owes <;> simp
  started other hother := by
    have hne : other ≠ thread := by omega
    rw [hworker, Function.update_of_ne hne]
    exact h.started other (by omega)

end State

/-! ## The invariant -/

/-- The state objects in which no job is in the hands of a worker. -/
def isQuiet : StateId → Bool
  | .suspended | .shuttingDown | .destructed => true
  | .inConstruction | .workingHard | .suspending => false

/-- Only a worker that is in `takeFirstAvailableJobOrSuspendOrWait`, or on its way to it,
comes with a report. -/
def WorkerPc.ReportsDirectly : WorkerPc J → Prop
  | dispatched id wasBusy => wasBusy = true → id = .workingHard ∨ id = .suspending
  | waitForAvailableJob wasBusy | blockThread wasBusy | waiting wasBusy | woken wasBusy =>
      wasBusy = false
  | started | applyForWork _ | busy _ _ | exited => True

/-- The shutdown has waited for the queue to become idle. -/
def ShutDownPc.isDrained : ShutDownPc → Bool
  | .acquire | .finish => false
  | .suspend | .setSuspending | .setShuttingDown | .reschedule | .collect | .join _
  | .setDestructed => true

/-- The count is right, and it is 0 wherever the weaver rests. -/
structure State.Accounted (s : State J P T σ ε) : Prop where
  tallied : s.Tallied
  reports : ∀ thread, (s.worker thread).pc.ReportsDirectly
  requests : ∀ caller id, s.caller caller = .setState id → id = .workingHard ∨ id = .suspending
  constructed : s.stateId ≠ .inConstruction
  quiet : isQuiet s.stateId → s.active = 0
  drained : ∀ caller rest, s.caller caller = .shutDown rest → rest.isDrained →
    s.assignments = [] ∧ s.active = 0

/-- The worker has a job in hand. -/
def WorkerPc.isBusy : WorkerPc J → Bool
  | busy _ _ => true
  | _ => false

/-- The thread is in `shutDown`. -/
def CallerPc.shutsDown : CallerPc → Bool
  | shutDown _ => true
  | _ => false

theorem CallerPc.keepsQueue_eq_false {pc : CallerPc} (h : pc.shutsDown) :
    pc.keepsQueue = false := by
  cases pc <;> first | rfl | cases h

/-- While a thread shuts the weaver down only jobs in execution enqueue. -/
def OnlyJobsEnqueue (s : State J P T σ ε) (action : Act J P T ε) : Prop :=
  action.batch?.isSome → (∃ caller, (s.caller caller).shutsDown) →
    ∃ thread < s.createdThreads, (s.worker thread).pc.isBusy

instance [Fintype T] (s : State J P T σ ε) (action : Act J P T ε) :
    Decidable (OnlyJobsEnqueue s action) :=
  inferInstanceAs (Decidable (_ → _ → _))

section Invariant

variable [DecidableEq J] [DecidableEq P] [DecidableEq T] {S : Setup J P σ ε}
  {start : Start J P σ} {s next : State J P T σ ε} {action : Act J P T ε}

omit [DecidableEq J] [DecidableEq P] [DecidableEq T] in
theorem WorkerPc.ReportsDirectly.wake {worker : Worker J} (h : worker.pc.ReportsDirectly) :
    worker.wake.pc.ReportsDirectly := by
  obtain ⟨pc, activations⟩ := worker
  cases pc <;> exact h

omit [DecidableEq J] [DecidableEq P] [DecidableEq T] in
/-- A call in one section: the threads may be woken, and others created. -/
private theorem accounted_of_call (h : s.Accounted) {k : ℕ} (hcall : State.QueueCall k next s)
    (hassignments : (∃ caller rest, s.caller caller = .shutDown rest ∧ rest.isDrained) →
      s.assignments = [] → next.assignments = []) : next.Accounted where
  tallied := h.tallied.of_wakes hcall.hires.createdThreads hcall.wakes hcall.active
  reports thread := by
    rcases hcall.wakes with hworker | hworker
    · exact hworker ▸ h.reports thread
    · rw [hworker]
      exact (h.reports thread).wake
  requests caller id := hcall.caller ▸ h.requests caller id
  constructed := hcall.stateId ▸ h.constructed
  quiet hid := hcall.active.trans (h.quiet (hcall.stateId ▸ hid))
  drained caller rest hcaller hrest := by
    rw [hcall.caller] at hcaller
    obtain ⟨hempty, hactive⟩ := h.drained caller rest hcaller hrest
    exact ⟨hassignments ⟨caller, rest, hcaller, hrest⟩ hempty, hcall.active.trans hactive⟩

omit [DecidableEq J] [DecidableEq P] [DecidableEq T] in
/-- A worker that owes a report counts. -/
theorem State.Accounted.active_pos (h : s.Accounted) {thread : ℕ}
    (hthread : thread < s.createdThreads) (howes : (s.worker thread).pc.owes) :
    0 < s.active := by
  have hmem : thread ∈ s.owing := State.mem_owing.mpr ⟨hthread, howes⟩
  have hcard : 0 < s.owing.card := Finset.card_pos.mpr ⟨thread, hmem⟩
  rw [h.tallied.active]
  exact_mod_cast hcard

omit [DecidableEq J] [DecidableEq P] in
/-- A caller gets to `pc`, and the threads may be woken. -/
private theorem accounted_of_caller (h : s.Accounted) (caller : T) (pc : CallerPc)
    (hcreated : next.createdThreads = s.createdThreads) (hwakes : next.WakesFrom s)
    (hactive : next.active = s.active) (hassignments : next.assignments = s.assignments)
    (hcaller : next.caller = Function.update s.caller caller pc)
    (hrequests : ∀ id, pc = .setState id → id = .workingHard ∨ id = .suspending)
    (hconstructed : next.stateId ≠ .inConstruction)
    (hquiet : isQuiet next.stateId → s.active = 0)
    (hdrained : ∀ rest, pc = .shutDown rest → rest.isDrained →
      s.assignments = [] ∧ s.active = 0) : next.Accounted where
  tallied := h.tallied.of_wakes (k := 0) hcreated hwakes hactive
  reports thread := by
    rcases hwakes with hworker | hworker
    · exact hworker ▸ h.reports thread
    · rw [hworker]
      exact (h.reports thread).wake
  requests other id hother := by
    rw [hcaller, Function.update_apply] at hother
    split at hother
    · exact hrequests id hother
    · exact h.requests other id hother
  constructed := hconstructed
  quiet hid := hactive.trans (hquiet hid)
  drained other rest hother hrest := by
    rw [hassignments, hactive]
    rw [hcaller, Function.update_apply] at hother
    split at hother
    · exact hdrained rest hother hrest
    · exact h.drained other rest hother hrest

omit [DecidableEq J] [DecidableEq P] [DecidableEq T] in
/-- A worker moves. -/
private theorem accounted_of_worker (h : s.Accounted) {k thread : ℕ} {worker : Worker J}
    (hthread : thread < s.createdThreads)
    (hcreated : next.createdThreads = s.createdThreads + k)
    (hworker : next.worker = Function.update s.worker thread worker)
    (hactive : next.active = s.active - (if (s.worker thread).pc.owes then 1 else 0) +
      if worker.pc.owes then 1 else 0)
    (hreports : worker.pc.ReportsDirectly) (hcaller : next.caller = s.caller)
    (hconstructed : next.stateId ≠ .inConstruction)
    (hquiet : isQuiet next.stateId → next.active = 0)
    (hdrained : s.assignments = [] → s.active = 0 → next.assignments = [] ∧ next.active = 0) :
    next.Accounted where
  tallied := h.tallied.update hthread hcreated hworker hactive
  reports other := by
    rw [hworker, Function.update_apply]
    split
    · exact hreports
    · exact h.reports other
  requests caller id := hcaller ▸ h.requests caller id
  constructed := hconstructed
  quiet := hquiet
  drained caller rest hcaller' hrest := by
    obtain ⟨hempty, hzero⟩ := h.drained caller rest (hcaller ▸ hcaller') hrest
    exact hdrained hempty hzero

omit [DecidableEq P] in
private theorem State.Accounted.shutDownStep (h : s.Accounted) {caller : T} {rest : ShutDownPc}
    (hcaller : s.caller caller = .shutDown rest)
    (hstep : Weaver.shutDownStep caller s rest = some next) : next.Accounted := by
  have hdrained := h.drained caller rest hcaller
  cases rest with
  | acquire =>
      simp only [Weaver.shutDownStep, Option.ite_none_right_eq_some, Option.some.injEq] at hstep
      rw [← hstep.2]
      exact accounted_of_caller h caller _ rfl (.inl rfl) rfl rfl rfl (by simp) h.constructed h.quiet
        (by simp [ShutDownPc.isDrained])
  | finish =>
      simp only [Weaver.shutDownStep, Option.ite_none_right_eq_some, Option.some.injEq] at hstep
      rw [← hstep.2]
      refine accounted_of_caller h caller _ rfl (.inl rfl) rfl rfl rfl (by simp) h.constructed h.quiet ?_
      intro _ _ _
      simpa [State.isIdleP] using hstep.1
  | suspend =>
      rw [← Option.some.inj hstep]
      refine accounted_of_caller h caller _ rfl (.inl rfl) rfl rfl rfl (by simp) h.constructed h.quiet ?_
      exact fun _ _ _ => hdrained rfl
  | setSuspending =>
      rw [← Option.some.inj hstep]
      refine accounted_of_caller h caller (.shutDown .setShuttingDown)
        (by simp [State.setCaller]) (State.wakesFrom_setStateP (s.setCaller _ _) _)
        (by simp [State.setCaller]) (by simp [State.setCaller]) (by simp [State.setCaller])
        (by simp) (by simp) (by simp [isQuiet]) ?_
      exact fun _ _ _ => hdrained rfl
  | setShuttingDown =>
      rw [← Option.some.inj hstep]
      refine accounted_of_caller h caller (.shutDown .reschedule)
        (by simp [State.setCaller]) (State.wakesFrom_setStateP (s.setCaller _ _) _)
        (by simp [State.setCaller]) (by simp [State.setCaller]) (by simp [State.setCaller])
        (by simp) (by simp) (fun _ => (hdrained rfl).2) ?_
      exact fun _ _ _ => hdrained rfl
  | reschedule =>
      rw [← Option.some.inj hstep]
      exact accounted_of_caller h caller _ rfl (.inr rfl) rfl rfl rfl (by simp) h.constructed h.quiet
        fun _ _ _ => hdrained rfl
  | collect =>
      simp only [Weaver.shutDownStep] at hstep
      split at hstep
      · rw [← Option.some.inj hstep]
        exact accounted_of_caller h caller _ rfl (.inl rfl) rfl rfl rfl (by simp) h.constructed h.quiet
          fun _ _ _ => hdrained rfl
      · rw [← Option.some.inj hstep]
        exact accounted_of_caller h caller _ rfl (.inl rfl) rfl rfl rfl (by simp) h.constructed h.quiet
          fun _ _ _ => hdrained rfl
  | join thread =>
      simp only [Weaver.shutDownStep] at hstep
      split at hstep
      · rw [← Option.some.inj hstep]
        exact accounted_of_caller h caller _ rfl (.inl rfl) rfl rfl rfl (by simp) h.constructed h.quiet
          fun _ _ _ => hdrained rfl
      · rw [← Option.some.inj hstep]
        exact accounted_of_call h s.queueCall_reschedule fun _ => id
  | setDestructed =>
      rw [← Option.some.inj hstep]
      refine accounted_of_caller h caller .idle
        (by simp [State.setCaller]) (State.wakesFrom_setStateP (s.setCaller _ _) _)
        (by simp [State.setCaller]) (by simp [State.setCaller]) (by simp [State.setCaller])
        (by simp) (by simp) (fun _ => (hdrained rfl).2) (by simp)

omit [DecidableEq J] [DecidableEq P] [DecidableEq T] in
/-- A report does not come when nobody is active. -/
private theorem active_enterTakeFirst_eq_zero (h : s.Accounted) {thread : ℕ} {id : StateId}
    {wasBusy : Bool} (hthread : thread < s.createdThreads)
    (hpc : (s.worker thread).pc = .dispatched id wasBusy) (hzero : s.active = 0) :
    wasBusy = false ∧ (s.enterTakeFirst wasBusy).active = 0 := by
  cases wasBusy with
  | false => simp [hzero]
  | true =>
      have hpos := h.active_pos hthread (by rw [hpc]; rfl)
      omega

omit [DecidableEq J] [DecidableEq P] [DecidableEq T] in
private theorem State.Accounted.workerTurn (h : s.Accounted) {thread : ℕ}
    (hthread : thread < s.createdThreads) (hturn : WorkerTurn S thread s next) :
    next.Accounted := by
  have hreports := h.reports thread
  have henter : ∀ wasBusy, (s.enterTakeFirst wasBusy).worker = s.worker :=
    s.worker_enterTakeFirst
  have hcreated : ∀ wasBusy,
      (s.enterTakeFirst wasBusy).createdThreads = s.createdThreads + s.room 1 :=
    fun wasBusy => (s.hires_enterTakeFirst wasBusy).createdThreads
  -- a worker that has entered the section and leaves it without a job
  have hidle : ∀ (worker : Worker J) {id : StateId} {wasBusy : Bool} {next : State J P T σ ε},
      (s.worker thread).pc = .dispatched id wasBusy → worker.pc.owes = false →
      worker.pc.ReportsDirectly →
      next.createdThreads = s.createdThreads + s.room 1 →
      next.worker = Function.update s.worker thread worker →
      next.active = (s.enterTakeFirst wasBusy).active → next.caller = s.caller →
      next.stateId ≠ .inConstruction →
      (isQuiet next.stateId → isQuiet s.stateId ∨ next.active = 0) →
      next.assignments = s.assignments → next.Accounted := by
    intro worker id wasBusy next hpc howes hdirect hcreated hworker hactive hcaller hconstructed
      hquiet hassignments
    refine accounted_of_worker h hthread hcreated hworker ?_ hdirect hcaller hconstructed ?_ ?_
    · rw [hactive, hpc, howes, State.active_enterTakeFirst]
      cases wasBusy <;> simp [WorkerPc.owes, Int.sub_eq_add_neg]
    · intro hid
      rcases hquiet hid with hbefore | hzero
      · rw [hactive]
        exact (active_enterTakeFirst_eq_zero h hthread hpc (h.quiet hbefore)).2
      · exact hzero
    · intro hempty hzero
      rw [hactive, hassignments]
      exact ⟨hempty, (active_enterTakeFirst_eq_zero h hthread hpc hzero).2⟩
  cases hturn with
  | pass hnext hpasses =>
      rename_i pc
      obtain ⟨activations, hworker⟩ := hpasses.worker
      have howes : pc.owes = (s.worker thread).pc.owes := by
        refine hnext.owes fun of => ?_
        by_cases hpc : (s.worker thread).pc = .dispatched of true
        · right
          rw [hpc] at hreports
          rcases hreports rfl with rfl | rfl <;> simp
        · exact .inl hpc
      refine accounted_of_worker h (k := 0) hthread hpasses.crew.2.2 hworker ?_ ?_ hpasses.caller
        (hpasses.stateId ▸ h.constructed) ?_ ?_
      · rw [hpasses.active, howes]
        omega
      · generalize hbefore : (s.worker thread).pc = before at hnext hreports howes
        cases hnext with
        | dispatch wasBusy =>
            -- the pointer that a worker with a report reads is not that of a resting state
            rintro rfl
            have hpos := h.active_pos hthread (by rw [hbefore]; rfl)
            have hnot : isQuiet s.stateId = false := by
              refine Bool.eq_false_iff.mpr fun hid => ?_
              have hzero := h.quiet hid
              omega
            have hconstructed := h.constructed
            generalize s.stateId = id at hnot hconstructed ⊢
            cases id <;> simp_all [isQuiet]
        | rest wasBusy hof =>
            cases wasBusy with
            | false => rfl
            | true =>
                rcases hreports rfl with rfl | rfl <;> rcases hof with hof | hof <;> cases hof
        | leave _ _ | enter | skip _ _ | wake _ | work _ _ | report => trivial
        | block wasBusy _ | wait wasBusy => exact hreports
      · intro hid
        rw [hpasses.active]
        exact h.quiet (hpasses.stateId ▸ hid)
      · intro hempty hzero
        exact ⟨hpasses.assignments.trans hempty, hpasses.active.trans hzero⟩
  | again hpc _ _ =>
      refine hidle ⟨.applyForWork false, _⟩ hpc rfl trivial (hcreated _)
        (congrArg (Function.update · thread _) (henter _)) rfl (State.caller_enterTakeFirst ..)
        ?_ (fun hid => .inl ?_) (State.assignments_enterTakeFirst ..)
      · exact fun hid => h.constructed (by simpa [State.moveTo] using hid)
      · simpa [State.moveTo] using hid
  | expire hpc _ hworking _ =>
      refine hidle ⟨.exited, 0⟩ hpc rfl trivial (hcreated _)
        (congrArg (Function.update · thread _) (henter _)) rfl (State.caller_enterTakeFirst ..)
        ?_ (fun hid => .inl ?_) (State.assignments_enterTakeFirst ..)
      · exact fun hid => h.constructed (by simpa [State.returnTo] using hid)
      · simpa [State.returnTo] using hid
  | wait hpc _ hworking _ hscan =>
      refine hidle ⟨.waiting false, _⟩ hpc rfl rfl (hcreated _)
        (congrArg (Function.update · thread _) (henter _)) rfl (State.caller_enterTakeFirst ..)
        ?_ (fun hid => .inl ?_) (State.scan_eq_none_rest hscan)
      · exact fun hid => h.constructed (by simpa [State.moveTo] using hid)
      · simpa [State.moveTo] using hid
  | @suspend wasBusy hpc _ hsuspending hzero =>
      have hworker := ((s.enterTakeFirst wasBusy).worker_setStateP .suspended rfl).trans
        (henter wasBusy)
      refine hidle ⟨.waitForAvailableJob false, _⟩ hpc rfl rfl ?_
        (congrArg (Function.update · thread _) hworker) ?_ ?_ ?_ (fun hid => .inr ?_) ?_
      · exact (State.createdThreads_setStateP _ _).trans (hcreated _)
      · exact State.active_setStateP _ _
      · exact (State.caller_setStateP _ _).trans (State.caller_enterTakeFirst ..)
      · simp [State.moveTo]
      · exact (State.active_setStateP _ _).trans hzero
      · exact (State.assignments_setStateP _ _).trans (State.assignments_enterTakeFirst ..)
  | drop hpc _ _ =>
      refine hidle ⟨.waitForAvailableJob false, _⟩ hpc rfl rfl (hcreated _)
        (congrArg (Function.update · thread _) (henter _)) rfl (State.caller_enterTakeFirst ..)
        ?_ (fun hid => .inl ?_) (State.assignments_enterTakeFirst ..)
      · exact fun hid => h.constructed (by simpa [State.moveTo] using hid)
      · simpa [State.moveTo] using hid
  | @assign wasBusy job rest state hpc _ hworking _ hscan =>
      have hworker : Function.update (s.enterTakeFirst wasBusy).worker thread
          ⟨.busy job .assigned, 0⟩ = Function.update s.worker thread ⟨.busy job .assigned, 0⟩ := by
        rw [henter]
      refine accounted_of_worker h hthread (hcreated wasBusy) hworker ?_ trivial
        (State.caller_enterTakeFirst ..) ?_ ?_ ?_
      · show (s.enterTakeFirst wasBusy).active + 1 = _
        rw [hpc, State.active_enterTakeFirst]
        cases wasBusy <;> simp [WorkerPc.owes, Int.sub_eq_add_neg]
      · exact fun hid => h.constructed ((State.stateId_enterTakeFirst ..).symm.trans hid)
      · intro hid
        have hsame : isQuiet s.stateId :=
          (congrArg isQuiet (State.stateId_enterTakeFirst ..)).symm.trans hid
        rw [hworking] at hsame
        cases hsame
      · intro hempty
        rw [hempty] at hscan
        cases hscan

theorem State.Accounted.step (h : s.Accounted) (hok : OnlyJobsEnqueue s action)
    (hstep : Weaver.step S s action = some next) : next.Accounted := by
  cases step_turn hstep with
  | enqueue jobs _ =>
      obtain ⟨k, hcall⟩ := s.queueCall_enqueueP S jobs
      refine accounted_of_call h hcall ?_
      rintro ⟨caller, rest, hcaller, hrest⟩ -
      -- a drained weaver has no job in execution that could enqueue
      obtain ⟨thread, hthread, hbusy⟩ := hok rfl ⟨caller, by rw [hcaller]; rfl⟩
      have howes : (s.worker thread).pc.owes := by
        cases hpc : (s.worker thread).pc <;> simp_all [WorkerPc.isBusy, WorkerPc.owes]
      have hpos := h.active_pos hthread howes
      have hzero := (h.drained caller rest hcaller hrest).2
      omega
  | call hcall hsublist _ =>
      refine accounted_of_call h hcall fun _ hempty => ?_
      rw [hempty] at hsublist
      exact List.sublist_nil.mp hsublist
  | resize cap _ =>
      obtain ⟨k, hcall, hassignments, -⟩ := s.queueCall_setMaximumNumberOfThreadsP cap
      have hsame : State.Accounted { s with inventoryMax := cap } :=
        ⟨⟨h.tallied.active, h.tallied.started⟩, h.reports, h.requests, h.constructed, h.quiet,
          h.drained⟩
      exact accounted_of_call hsame hcall fun _ hempty => hassignments.trans hempty
  | @begin _ caller pc _ hbegins hbegun =>
      have hpc := Act.begins_pc hbegins
      refine accounted_of_caller h caller pc hbegun.crew.2.2 (.inl hbegun.worker) hbegun.active
        hbegun.assignments hbegun.caller ?_ (hbegun.stateId ▸ h.constructed)
        (hbegun.stateId ▸ h.quiet) ?_
      · rintro id rfl
        simp only [CallerPc.setState.injEq, reduceCtorEq, false_and, false_or, or_false] at hpc
        exact hpc.elim (fun h => .inr h.1) fun h => .inl h.1
      · rintro rest rfl hrest
        simp only [CallerPc.shutDown.injEq, reduceCtorEq, false_and, false_or] at hpc
        rw [hpc.1] at hrest
        cases hrest
  | @setState caller id hcaller =>
      have hid := h.requests caller id hcaller
      refine accounted_of_caller h caller .idle (by simp [State.setCaller])
        (State.wakesFrom_setStateP (s.setCaller _ _) _) (by simp [State.setCaller])
        (by simp [State.setCaller]) (by simp [State.setCaller]) (by simp) ?_ ?_ (by simp)
      · rcases hid with rfl | rfl <;> simp
      · rcases hid with rfl | rfl <;> simp [isQuiet]
  | reschedule hcaller =>
      exact accounted_of_caller h _ .idle rfl (.inr rfl) rfl rfl rfl (by simp) h.constructed
        h.quiet (by simp)
  | finish hcaller _ =>
      exact accounted_of_caller h _ .idle rfl (.inl rfl) rfl rfl rfl (by simp) h.constructed
        h.quiet (by simp)
  | shutDown hcaller hstep => exact h.shutDownStep hcaller hstep
  | worker hthread hturn => exact h.workerTurn hthread hturn

theorem runs_accounted (hrun : Runs S OnlyJobsEnqueue start s) : s.Accounted := by
  refine hrun.invariant (I := State.Accounted) ?_ fun _ _ _ h hok hstep => h.step hok hstep
  refine ⟨⟨?_, fun _ _ => rfl⟩, fun _ => trivial, ?_, ?_, ?_, ?_⟩
  · rfl
  · exact fun caller id h => by cases h
  · simp [init]
  · simp [init]
  · exact fun caller rest h => by cases h

omit [DecidableEq J] [DecidableEq P] [DecidableEq T] in
/-- A worker that is about to enter `applyForWork` of a state object with a report is in none
that rests, and its report does not make the count negative. -/
theorem State.Accounted.assertions (h : s.Accounted) {thread : ℕ}
    (hthread : thread < s.createdThreads) {id : StateId} {wasBusy : Bool}
    (hpc : (s.worker thread).pc = .dispatched id wasBusy) :
    (isQuiet id → wasBusy = false) ∧ 0 ≤ (s.enterTakeFirst wasBusy).active := by
  have hreports := h.reports thread
  rw [hpc] at hreports
  constructor
  · intro hid
    cases wasBusy with
    | false => rfl
    | true => rcases hreports rfl with rfl | rfl <;> cases hid
  · rw [State.active_enterTakeFirst]
    cases wasBusy with
    | false =>
        have hcount := h.tallied.active
        simp only [Bool.false_eq_true, if_false]
        omega
    | true =>
        have hpos := h.active_pos hthread (by rw [hpc]; rfl)
        simp only [if_true]
        omega

/-- The events of a step come from where they should. -/
theorem State.Accounted.justified (h : s.Accounted) (hstep : Weaver.step S s action = some next)
    {event : Event J P ε} (hemits : s.Emits next event) : Justified s next event := by
  have hrequests : ∀ caller id, s.caller caller = .setState id → id ≠ .suspended := by
    intro caller id hcaller
    rcases h.requests caller id hcaller with rfl | rfl <;> simp
  obtain ⟨events, hlog, hjustified⟩ := step_justified hstep hrequests
  obtain ⟨emitted, hemitted, hevent⟩ := hemits
  rw [hlog] at hemitted
  exact hjustified event (List.append_cancel_left hemitted ▸ hevent)

/-- **Suspension and the active count.**  In every run in which only jobs in execution enqueue
while the weaver is shut down, `active` is the number of workers that owe a report, it is 0 in
the states in which no job is handed out, the assertions of the state objects hold, a job is
handed out by a working weaver only, and `suspended` is emitted with nothing active. -/
theorem active_count (hrun : Runs S OnlyJobsEnqueue start s) :
    s.active = s.owing.card ∧
      (s.stateId = .suspended ∨ s.stateId = .shuttingDown ∨ s.stateId = .destructed →
        s.active = 0) ∧
      (∀ thread < s.createdThreads, ∀ id wasBusy,
        (s.worker thread).pc = .dispatched id wasBusy →
          (id = .suspended ∨ id = .shuttingDown ∨ id = .destructed → wasBusy = false) ∧
            0 ≤ (s.enterTakeFirst wasBusy).active) ∧
      ∀ action next, OnlyJobsEnqueue s action → Weaver.step S s action = some next →
        (∀ thread job, s.Emits next (.assigned thread job) → s.stateId = .workingHard) ∧
          (s.Emits next .suspended → next.active = 0) := by
  have h := runs_accounted hrun
  refine ⟨h.tallied.active, ?_, ?_, ?_⟩
  · rintro (hid | hid | hid) <;> exact h.quiet (by rw [hid]; rfl)
  · intro thread hthread id wasBusy hpc
    obtain ⟨hquiet, hnonneg⟩ := h.assertions hthread hpc
    refine ⟨?_, hnonneg⟩
    rintro (rfl | rfl | rfl) <;> exact hquiet rfl
  · intro action next _ hstep
    exact ⟨fun thread job hemits => (h.justified hstep hemits).1,
      fun hemits => (h.justified hstep hemits).2⟩

end Invariant

/-- A worker takes a job, and its report reaches the weaver while that is being shut down. -/
theorem active_count_shutDown : ∃ s : State ℕ Unit Unit (Unit → ℕ) Empty,
    s.caller () = .shutDown .finish ∧ (s.worker 0).pc = .dispatched .workingHard true ∧
      s.active = 1 ∧ s.active = s.owing.card ∧ 0 ≤ (s.enterTakeFirst true).active := by
  obtain ⟨s, hrun, hcaller, hcreated, hpc, hactive⟩ : ∃ s : State ℕ Unit Unit (Unit → ℕ) Empty,
      Runs numbered OnlyJobsEnqueue (.plain fun _ => 0) s ∧ _ :=
    Library.exists_runWhere
      (fun s => s.caller () = .shutDown .finish ∧ 0 < s.createdThreads ∧
        (s.worker 0).pc = .dispatched .workingHard true ∧ s.active = 1)
      [.enqueue [some 0], .worker 0, .worker 0, .worker 0, .worker 1, .shutDown (), .proceed (),
        .worker 0, .worker 0, .worker 0, .worker 0, .worker 0, .worker 0, .worker 0] (by decide)
  have hcount := active_count hrun
  exact ⟨s, hcaller, hpc, hactive, hcount.1, (hcount.2.2.1 0 hcreated _ _ hpc).2⟩

end ThreadWeaver.Weaver
