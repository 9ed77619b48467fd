import ThreadWeaver.Weaver.Active
import ThreadWeaver.Weaver.Schedule
import ThreadWeaver.Library.Pool

/-!
# The weaver is a pool

Read as a pool, the weaver has the jobs of its list waiting and as many active workers as
`active` says.  An enqueueing is an arrival, a dequeueing takes a job back, an assignment hands
one out, and `finished` is the signal that the pool has run dry.  Every step of the weaver is a
sequence of moves of this pool; `suspend`, `resume`, `shutDown` and the changes of the number of
threads are none at all.  So the weaver has the properties of pools: its list is in order, no job
gets lost, and `finished` is emitted when it should be.

The count of a pool does not go below zero.  That of the weaver does not either, by its books
(`State.Accounted`), in the runs in which only jobs in execution enqueue while the weaver is being
shut down.
-/

namespace ThreadWeaver.Weaver

open Library (Pool PoolEvent)

variable {J P T σ ε : Type*}

/-- What the event is for a pool. -/
def Event.pooled? : Event J P ε → Option (PoolEvent J ℕ)
  | .enqueued job => some (.arrived job)
  | .dequeued job => some (.takenBack job)
  | .assigned thread job => some (.handedOut thread job)
  | .finished => some .ranDry
  | .ended _ _ | .configured _ | .suspended | .stateChanged _ | .deleted _ => none

/-- The ledger of a weaver with `active` active workers. -/
def Ledger.pool (active : ℕ) (l : Ledger J P σ ε) : Pool J ℕ where
  waiting := l.assignments
  active := active
  history := l.log.filterMap Event.pooled?

/-- The weaver as a pool. -/
def State.pool (s : State J P T σ ε) : Pool J ℕ :=
  s.ledger.pool s.active.toNat

theorem filterMap_append_aside {log more : List (Event J P ε)}
    (h : ∀ event ∈ more, event.pooled? = none) :
    (log ++ more).filterMap Event.pooled? = log.filterMap Event.pooled? := by
  rw [List.filterMap_append, List.filterMap_eq_nil_iff.mpr h, List.append_nil]

theorem State.pool_eq {s next : State J P T σ ε} {more : List (Event J P ε)}
    (hassignments : next.assignments = s.assignments) (hactive : next.active = s.active)
    (hlog : next.log = s.log ++ more) (hmore : ∀ event ∈ more, event.pooled? = none) :
    next.pool = s.pool := by
  unfold State.pool Ledger.pool State.ledger
  rw [hassignments, hactive, hlog, filterMap_append_aside hmore]

theorem State.pool_eq_of_log {s next : State J P T σ ε}
    (hassignments : next.assignments = s.assignments) (hactive : next.active = s.active)
    (hlog : next.log = s.log) : next.pool = s.pool := by
  refine State.pool_eq hassignments hactive (hlog.trans (List.append_nil _).symm) ?_
  simp

section Moves

variable [DecidableEq J] [DecidableEq P] {S : Setup J P σ ε} {D : Discipline J P σ ε}
  {l l' : Ledger J P σ ε}

omit [DecidableEq J] in
theorem takeBack_all {priority : J → ℤ} (active : ℕ) (waiting : List J)
    (history : List (PoolEvent J ℕ)) :
    Relation.ReflTransGen (Pool.Move priority) ⟨waiting, active, history⟩
      ⟨[], active, history ++ waiting.map .takenBack⟩ := by
  induction waiting generalizing history with
  | nil => rw [List.map_nil, List.append_nil]
  | cons job rest ih =>
      have hfirst : Pool.Move priority ⟨job :: rest, active, history⟩
          ⟨[] ++ rest, active, history ++ [.takenBack job]⟩ :=
        .takeBack rfl
      have hrest := ih (history ++ [.takenBack job])
      rw [List.append_assoc] at hrest
      exact .head hfirst hrest

/-- A move of a call, seen from the pool. -/
theorem Ledger.Move.pooled (h : Ledger.Move S D l l') (active : ℕ) {more : List (Event J P ε)}
    (hlog : l'.log = l.log ++ more) (hmore : ∀ event ∈ more, event.ofCall) :
    Relation.ReflTransGen (Pool.Move S.priority) (l.pool active) (l'.pool active) := by
  have hnone : ∀ {event : Event J P ε}, l.log ++ [event] = l.log ++ more → event.ofCall := by
    intro event heq
    rw [List.append_cancel_left_eq] at heq
    exact hmore event (heq ▸ List.mem_singleton_self event)
  cases h with
  | note event hnote => cases event <;> cases hnote <;> cases hnone hlog
  | enqueue job _ =>
      apply Relation.ReflTransGen.single
      have hmove : Pool.Move S.priority (l.pool active) _ := .arrive job
      simpa [Ledger.pool, Event.pooled?] using hmove
  | takeOut job hmem =>
      apply Relation.ReflTransGen.single
      obtain ⟨front, back, hnot, hsplit, herase⟩ := List.exists_erase_eq hmem
      have hmove : Pool.Move S.priority (l.pool active) _ := .takeBack hsplit
      simpa [Ledger.pool, Event.pooled?, herase] using hmove
  | clear =>
      have hmoves : Relation.ReflTransGen (Pool.Move S.priority) _ _ :=
        takeBack_all active l.assignments (l.log.filterMap Event.pooled?)
      simpa [Ledger.pool, List.filterMap_append, List.filterMap_map, Function.comp_def,
        Event.pooled?] using hmoves
  | refuse hscan =>
      have hrest := State.scan_eq_none_rest hscan
      subst hrest
      exact .refl
  | assign thread _ hscan => cases hnone hlog
  | prepare _ | begin _ | run _ | free _ _ | freed _ _ | leave _ => exact .refl
  | finish _ => cases hnone hlog
  | configure ops _ =>
      have hsame : (l.log ++ [Event.configured ops]).filterMap Event.pooled? =
          l.log.filterMap Event.pooled? :=
        filterMap_append_aside (by simp [Event.pooled?])
      unfold Ledger.pool
      rw [hsame]

theorem Ledger.Moves.pooled (h : Ledger.Moves S D l l') (active : ℕ) {more : List (Event J P ε)}
    (hlog : l'.log = l.log ++ more) (hmore : ∀ event ∈ more, event.ofCall) :
    Relation.ReflTransGen (Pool.Move S.priority) (l.pool active) (l'.pool active) := by
  induction h using Relation.ReflTransGen.head_induction_on generalizing more with
  | refl => exact .refl
  | head hmove hrest ih =>
      obtain ⟨first, hfirst⟩ := hmove.log
      obtain ⟨second, hsecond⟩ := Ledger.Moves.log hrest
      obtain rfl : first ++ second = more := by
        rw [hsecond, hfirst, List.append_assoc, List.append_cancel_left_eq] at hlog
        exact hlog
      rw [List.forall_mem_append] at hmore
      exact (hmove.pooled active hfirst hmore.1).trans (ih hsecond hmore.2)

/-! ## One step of the weaver -/

variable {s next : State J P T σ ε} {thread : ℕ}

theorem State.pooled_of_call {k : ℕ}
    (hmoves : Ledger.Moves S D s.ledger next.ledger) {before : State J P T σ ε}
    (hcall : State.QueueCall k next before) (hactive : before.active = s.active)
    (hlog : before.log = s.log) :
    Relation.ReflTransGen (Pool.Move S.priority) s.pool next.pool := by
  obtain ⟨events, hevents, hof⟩ := hcall.log
  have hsame : next.active = s.active := hcall.active.trans hactive
  unfold State.pool
  rw [hsame]
  refine hmoves.pooled _ ?_ hof
  exact hevents.trans (hlog ▸ rfl)

omit [DecidableEq J] [DecidableEq P] in
theorem State.pool_setStateP (s : State J P T σ ε) (id : StateId) :
    (s.setStateP id).pool = s.pool := by
  rcases s.log_setStateP id with hsame | hmore
  · exact State.pool_eq_of_log (by simp) (by simp) hsame
  · rw [List.append_assoc] at hmore
    refine State.pool_eq (by simp) (by simp) hmore fun event hevent => ?_
    rw [List.mem_append] at hevent
    rcases hevent with hevent | hevent
    · split at hevent
      · rw [List.mem_singleton.mp hevent]
        rfl
      · cases hevent
    · rw [List.mem_singleton.mp hevent]
      rfl

omit [DecidableEq J] [DecidableEq P] in
theorem State.pool_enterTakeFirst (s : State J P T σ ε) (wasBusy : Bool) :
    (s.enterTakeFirst wasBusy).pool =
      { waiting := s.pool.waiting
        active := (if wasBusy then s.active + -1 else s.active).toNat
        history := s.pool.history ++
          if wasBusy ∧ s.assignments.isEmpty ∧ s.active + -1 = 0 then [.ranDry] else [] } := by
  have hdeleted : ∀ event ∈ s.expiredThreads.map (Event.deleted (J := J) (P := P) (ε := ε)),
      event.pooled? = none := by
    simp [Event.pooled?]
  rw [State.enterTakeFirst_eq]
  unfold State.pool Ledger.pool State.ledger
  dsimp only
  rw [List.filterMap_append, filterMap_append_aside hdeleted, apply_ite (List.filterMap _)]
  rfl

omit [DecidableEq J] [DecidableEq P] in
/-- A worker that brings a report back retires. -/
theorem State.pooled_enterTakeFirst {priority : J → ℤ} {wasBusy : Bool}
    (hactive : 0 ≤ (s.enterTakeFirst wasBusy).active) :
    Relation.ReflTransGen (Pool.Move priority) s.pool (s.enterTakeFirst wasBusy).pool := by
  rw [State.active_enterTakeFirst] at hactive
  rw [State.pool_enterTakeFirst]
  cases wasBusy with
  | false =>
      simp only [Bool.false_eq_true, false_and, if_false, List.append_nil]
      exact .refl
  | true =>
      simp only [if_true, true_and] at hactive ⊢
      have hcount : s.pool.active = (s.active + -1).toNat + 1 := by
        change s.active.toNat = _
        omega
      have hdry : s.pool.waiting = [] ∧ (s.active + -1).toNat = 0 ↔
          s.assignments.isEmpty ∧ s.active + -1 = 0 := by
        rw [List.isEmpty_iff]
        exact and_congr_right fun _ => by omega
      have hretire : Pool.Move priority s.pool _ := .retire hcount
      rw [if_congr hdry rfl rfl] at hretire
      exact .single hretire

omit [DecidableEq J] [DecidableEq P] in
/-- The job that the scan has found is handed out. -/
theorem State.pooled_assign {rest : List J} {job : J} {state : σ} (hactive : 0 ≤ s.active)
    (hscan : State.scan S s.queuePolicies s.assignments s.policyState = (some job, rest, state)) :
    Relation.ReflTransGen (Pool.Move S.priority) s.pool
      (State.adjustActiveThreadCount 1
        (State.record (.assigned thread job)
          { s with assignments := rest, policyState := state })).pool := by
  obtain ⟨front, back, hsplit, rfl⟩ := State.scan_eq_some_split hscan
  have hmove : Pool.Move S.priority s.pool _ := .handOut thread hsplit
  have hcount : (s.active + 1).toNat = s.pool.active + 1 := by
    change _ = s.active.toNat + 1
    omega
  refine .single ?_
  rw [State.adjustActiveThreadCount_eq, if_neg (by simp [State.record]; omega)]
  unfold State.pool Ledger.pool State.ledger State.record
  dsimp only
  rw [List.append_nil, List.filterMap_append, hcount]
  exact hmove

omit [DecidableEq J] [DecidableEq P] in
theorem State.Accounted.pooled_workerTurn (h : s.Accounted) (hthread : thread < s.createdThreads)
    (hturn : WorkerTurn S thread s next) :
    Relation.ReflTransGen (Pool.Move S.priority) s.pool next.pool := by
  have henter : ∀ {id wasBusy}, (s.worker thread).pc = .dispatched id wasBusy →
      Relation.ReflTransGen (Pool.Move S.priority) s.pool (s.enterTakeFirst wasBusy).pool :=
    fun hpc => State.pooled_enterTakeFirst (h.assertions hthread hpc).2
  cases hturn with
  | pass _ hpasses =>
      have hsame : next.pool = s.pool := by
        rcases hpasses.log with hlog | ⟨job, status, hlog⟩
        · exact State.pool_eq_of_log hpasses.assignments hpasses.active hlog
        · exact State.pool_eq hpasses.assignments hpasses.active hlog (by simp [Event.pooled?])
      rw [hsame]
  | again hpc _ _ | drop hpc _ _ => exact henter hpc
  | expire hpc _ _ _ => exact henter hpc
  | @wait wasBusy rest state hpc _ _ _ hscan =>
      have hrest := (State.scan_eq_none_rest hscan).trans (s.assignments_enterTakeFirst wasBusy).symm
      subst hrest
      exact henter hpc
  | @suspend wasBusy hpc _ _ _ =>
      have hentered := henter hpc
      rw [← (s.enterTakeFirst wasBusy).pool_setStateP .suspended] at hentered
      exact hentered
  | assign hpc _ _ _ hscan =>
      obtain ⟨hassignments, hqueuePolicies, hpolicyState⟩ := s.ledger_enterTakeFirst _
      rw [← hassignments, ← hqueuePolicies, ← hpolicyState] at hscan
      exact (henter hpc).trans (State.pooled_assign (h.assertions hthread hpc).2 hscan)

omit [DecidableEq P] in
/-- The rest of the shutdown is none of the pool's. -/
theorem State.pool_shutDownStep [DecidableEq T] {caller : T} {rest : ShutDownPc}
    (hstep : shutDownStep caller s rest = some next) : next.pool = s.pool := by
  cases rest with
  | acquire | finish =>
      simp only [shutDownStep, Option.ite_none_right_eq_some, Option.some.injEq] at hstep
      rw [← hstep.2]
      rfl
  | suspend | reschedule =>
      rw [← Option.some.inj hstep]
      rfl
  | setSuspending | setShuttingDown | setDestructed =>
      rw [← Option.some.inj hstep, State.pool_setStateP]
      rfl
  | collect =>
      simp only [shutDownStep] at hstep
      split at hstep
      · rw [← Option.some.inj hstep]
        rfl
      · rw [← Option.some.inj hstep]
        rfl
  | join thread =>
      simp only [shutDownStep] at hstep
      split at hstep
      · rw [← Option.some.inj hstep]
        exact State.pool_eq rfl rfl rfl (by simp [Event.pooled?])
      · rw [← Option.some.inj hstep]
        rfl

/-- **Every step of the weaver is a sequence of moves of the pool.** -/
theorem State.Accounted.pooled [DecidableEq T] {action : Act J P T ε} (h : s.Accounted)
    (hstep : Weaver.step S s action = some next) :
    Relation.ReflTransGen (Pool.Move S.priority) s.pool next.pool := by
  have hmoves : Ledger.Moves S .none s.ledger next.ledger :=
    step_moves (Discipline.none_allows s _) hstep
  cases step_turn hstep with
  | enqueue jobs _ =>
      obtain ⟨k, hcall⟩ := s.queueCall_enqueueP S jobs
      exact State.pooled_of_call hmoves hcall rfl rfl
  | call hcall _ _ => exact State.pooled_of_call hmoves hcall rfl rfl
  | resize cap _ =>
      obtain ⟨k, hcall, -, -⟩ := s.queueCall_setMaximumNumberOfThreadsP cap
      exact State.pooled_of_call hmoves hcall rfl rfl
  | begin _ hbegun =>
      have hsame : next.pool = s.pool := by
        rcases hbegun.log with hlog | ⟨ops, hlog⟩
        · exact State.pool_eq_of_log hbegun.assignments hbegun.active hlog
        · exact State.pool_eq hbegun.assignments hbegun.active hlog (by simp [Event.pooled?])
      rw [hsame]
  | setState _ =>
      rw [State.pool_setStateP]
      exact .refl
  | reschedule _ | finish _ _ => exact .refl
  | shutDown _ hstep => rw [State.pool_shutDownStep hstep]
  | worker hthread hturn => exact h.pooled_workerTurn hthread hturn

/-- **The weaver refines the pool.**  In every run in which only jobs in execution enqueue while
the weaver is shut down, the weaver is a pool that comes out of the empty one, and every step it
can take is a sequence of moves.  Its count is that of the pool, its list is in the order of
priorities and arrivals, every job that was enqueued waits or has left as often, and `finished`
is emitted when the last active worker comes back to an empty list and at no other time. -/
theorem refines_pool [DecidableEq T] {start : Start J P σ} (hrun : Runs S OnlyJobsEnqueue start s) :
    (s.pool.active : ℤ) = s.active ∧ Pool.Reachable S.priority s.pool ∧
      s.pool.InOrder S.priority ∧ s.pool.Balanced ∧ s.pool.Signals ∧
      ∀ action next, step S s action = some next →
        Relation.ReflTransGen (Pool.Move S.priority) s.pool next.pool := by
  obtain ⟨haccounted, hreachable⟩ : s.Accounted ∧ Pool.Reachable S.priority s.pool := by
    refine hrun.invariant (I := fun s => s.Accounted ∧ Pool.Reachable S.priority s.pool) ?_ ?_
    · exact ⟨runs_accounted .refl, .refl⟩
    · rintro state action next ⟨haccounted, hreachable⟩ hok hstep
      exact ⟨haccounted.step hok hstep, hreachable.trans (haccounted.pooled hstep)⟩
  refine ⟨?_, hreachable, hreachable.inOrder, hreachable.balanced, hreachable.signals,
    fun action next hstep => haccounted.pooled hstep⟩
  have hcount := haccounted.tallied.active
  unfold State.pool Ledger.pool
  dsimp only
  omega

end Moves

/-- A job is executed, and while it is the weaver is suspended; the pool runs dry. -/
theorem refines_pool_suspending : ∃ s : State ℕ Unit Unit (Unit → ℕ) Empty,
    s.stateId = .suspended ∧
      s.pool.history = [.arrived 0, .handedOut 0 0, .ranDry] ∧ s.pool.Signals := by
  obtain ⟨s, hrun, hid, hhistory⟩ : ∃ s : State ℕ Unit Unit (Unit → ℕ) Empty,
      Runs numbered OnlyJobsEnqueue (.plain fun _ => 0) s ∧ _ :=
    Library.exists_runWhere
      (fun s => s.stateId = .suspended ∧
        s.pool.history = [.arrived 0, .handedOut 0 0, .ranDry])
      [.enqueue [some 0], .worker 0, .worker 0, .worker 0, .suspend (), .proceed (),
        .worker 0, .worker 0, .worker 0, .worker 0, .worker 0, .worker 0, .worker 0, .worker 0]
      (by decide)
  exact ⟨s, hid, hhistory, (refines_pool hrun).2.2.2.2.1⟩

end ThreadWeaver.Weaver
