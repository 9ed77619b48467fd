import Mathlib.Data.Fintype.Basic
import ThreadWeaver.Collection.Completion

/-!
# Calls that keep the weaver mutex

`Weaver::requestAbort` goes through the threads of the inventory and calls `requestAbort` on
the jobs that they have in hand, and `dequeue` runs the hooks of the jobs in the queue.  Both
keep the weaver mutex, which is not recursive, while jobs do what they please.  The steps of
nested collections are extended here by these calls, and by the thread objects with their mutex
and the pointer to the job in hand.

The hooks and most of an abort need no more than the mutexes of jobs.  But the stop of a
collection that is still known to the queue goes back to the queue, and a thread that has the
weaver mutex already waits for itself.
-/

namespace ThreadWeaver.Collection

open Library (owed Custody)

variable {J P T σ : Type*}

/-! ## Jobs and the decorators around them -/

/-- What a `JobPointer` points to: a job, or an `IdDecorator`. -/
inductive JobPointer (J : Type*)
  | job (target : J)
  | decorator (decoratee : JobPointer J)
  deriving DecidableEq, Repr

/-- The job that all the decorators are around. -/
def JobPointer.decorated : JobPointer J → J
  | job target => target
  | decorator decoratee => decoratee.decorated

/-- The jobs of a program, and the pointers by which the queue knows them. -/
structure Program (J P σ : Type*) extends Forest J P σ where
  pointer : J → JobPointer J
  decorated_pointer : ∀ job, (pointer job).decorated = job

/-! ## The state -/

/-- What a thread that keeps the weaver mutex has still to do. -/
inductive CallOp (J : Type*)
  /-- `Thread::requestAbort` of a worker, up to the call -/
  | visit (worker : ℕ)
  /-- `requestAbort` of the job in hand, which decorators pass on -/
  | requestAbort (pointer : JobPointer J)
  | unlockThread (worker : ℕ)
  /-- the loop of `dequeue_p()` from an index on -/
  | dequeueFrom (index : ℕ)
  deriving DecidableEq, Repr

/-- The collections and their threads, the thread objects of the workers, and the calls that
keep the weaver mutex. -/
structure QueueState (J P T σ : Type*) where
  inner : State J P T σ
  /-- the `job` of each thread object -/
  job : ℕ → Option (JobPointer J)
  /-- who holds the mutex of each thread object -/
  threadHolder : ℕ → Option T
  call : T → Option (List (CallOp J))

namespace QueueState

/-- No worker has a job in hand, and nobody has called the queue. -/
def init (start : Weaver.Start J P σ) : QueueState J P T σ where
  inner := Collection.init start
  job _ := none
  threadHolder _ := none
  call _ := none

/-- The thread may go on: a worker sets the `job` of its thread object before it executes the
job and clears it before it applies for work again, and a call goes on when what it has called
has returned. -/
def MayRun [DecidableEq J] (s : QueueState J P T σ) : Thread T → Prop
  | .worker number =>
      match s.inner.stack (.worker number) with
      | .execute _ :: _ => s.job number ≠ none
      | [.applyForWork _] => s.job number = none
      | _ => True
  | .caller caller => s.call caller = none ∨ s.inner.stack (.caller caller) ≠ [.unlock .weaver]

instance [DecidableEq J] (s : QueueState J P T σ) (thread : Thread T) :
    Decidable (s.MayRun thread) := by
  cases thread with
  | worker number =>
      unfold MayRun
      dsimp only
      split <;> infer_instance
  | caller caller => exact inferInstanceAs (Decidable (_ ∨ _))

end QueueState

/-! ## Steps -/

section Step

variable [DecidableEq J] [DecidableEq P] [DecidableEq T]

namespace QueueState

/-- A worker sets the `job` of its thread object. -/
def setJob (number : ℕ) (job : Option (JobPointer J)) (s : QueueState J P T σ) :
    QueueState J P T σ :=
  { s with job := Function.update s.job number job }

/-- A caller takes the weaver mutex and has `ops` to do before it releases it. -/
def beginCall (caller : T) (ops : List (CallOp J)) (s : QueueState J P T σ) :
    Option (QueueState J P T σ) :=
  if s.inner.stack (.caller caller) = [] ∧ s.inner.data.holder .weaver = none then
    some { s with
      inner :=
        { data := s.inner.data.lock .weaver (.caller caller)
          stack := Function.update s.inner.stack (.caller caller) [.unlock .weaver] }
      call := Function.update s.call caller (some ops) }
  else none

/-- The call has `ops` left. -/
def goOn (caller : T) (ops : List (CallOp J)) (s : QueueState J P T σ) : QueueState J P T σ :=
  { s with call := Function.update s.call caller (some ops) }

/-- The call calls an operation of a job. -/
def callOp (caller : T) (op : Op J) (s : QueueState J P T σ) : QueueState J P T σ :=
  { s with
    inner := { s.inner with
      stack := Function.update s.inner.stack (.caller caller)
        (op :: s.inner.stack (.caller caller)) } }

/-- The end of `dequeue_p()`: the list is cleared. -/
def clear (F : Forest J P σ) (s : QueueState J P T σ) : QueueState J P T σ :=
  let d := s.inner.data
  { s with
    inner := { s.inner with
      data := { d with
        assignments := []
        place := fun job =>
          if job ∈ d.assignments then if F.parent job = none then .fresh else .lost
          else d.place job
        log := d.log ++ d.assignments.map .dequeued } } }

/-- The next operation of a call that keeps the weaver mutex. -/
def proceed (F : Forest J P σ) (caller : T) (s : QueueState J P T σ) :
    List (CallOp J) → Option (QueueState J P T σ)
  | [] =>
      (s.inner.runThread F (.caller caller)).map fun inner =>
        { s with inner := inner, call := Function.update s.call caller none }
  | .visit number :: rest =>
      if s.threadHolder number = none then
        let aborts := (s.job number).toList.map CallOp.requestAbort
        some ({ s with threadHolder := Function.update s.threadHolder number (some caller) }.goOn
          caller (aborts ++ CallOp.unlockThread number :: rest))
      else none
  | .requestAbort (.decorator decoratee) :: rest =>
      some (s.goOn caller (.requestAbort decoratee :: rest))
  | .requestAbort (.job job) :: rest =>
      some ((s.goOn caller rest).callOp caller (.requestAbort job))
  | .unlockThread number :: rest =>
      some ({ s with threadHolder := Function.update s.threadHolder number none }.goOn caller rest)
  | .dequeueFrom index :: rest =>
      match s.inner.data.assignments[index]? with
      | some job =>
          some ((s.goOn caller (.dequeueFrom (index + 1) :: rest)).callOp caller
            (.aboutToBeDequeued job))
      | none => some ((s.clear F).goOn caller rest)

end QueueState

/-- What threads do. -/
inductive QueueAct (J T : Type*)
  | inner (act : Act J T)
  /-- a worker that has been handed a job sets `job` -/
  | setJob (number : ℕ)
  /-- a worker that has executed its job clears `job` -/
  | clearJob (number : ℕ)
  /-- `Weaver::requestAbort`, with the threads of the inventory -/
  | requestAbort (caller : T) (inventory : List ℕ)
  | dequeue (caller : T) (job : J)
  | dequeueAll (caller : T)
  /-- the next operation of a call that keeps the weaver mutex -/
  | proceed (caller : T)
  deriving DecidableEq, Repr

/-- One step of the threads and of the calls to the queue. -/
def queueStep (G : Program J P σ) (s : QueueState J P T σ) :
    QueueAct J T → Option (QueueState J P T σ)
  | .inner (.run thread) =>
      if s.MayRun thread then
        (s.inner.runThread G.toForest thread).map fun inner => { s with inner := inner }
      else none
  | .inner act => (step G.toForest s.inner act).map fun inner => { s with inner := inner }
  | .setJob number =>
      match s.inner.stack (.worker number) with
      | .execute job :: _ =>
          if s.job number = none ∧ s.threadHolder number = none then
            some (s.setJob number (some (G.pointer job)))
          else none
      | _ => none
  | .clearJob number =>
      match s.inner.stack (.worker number) with
      | [.applyForWork _] =>
          if s.job number ≠ none ∧ s.threadHolder number = none then some (s.setJob number none)
          else none
      | _ => none
  | .requestAbort caller inventory => s.beginCall caller (inventory.map .visit)
  | .dequeue caller job =>
      if s.inner.stack (.caller caller) = [] ∧ s.inner.data.holder .weaver = none then
        if job ∈ s.inner.data.assignments then
          -- as in the `dequeue` of a collection by its own `stop`
          let result := exec G.toForest (.caller caller) (.dequeueSelf job) s.inner.data
          some { s with inner :=
            ⟨result.1, Function.update s.inner.stack (.caller caller) result.2⟩ }
        else some s
      else none
  | .dequeueAll caller => s.beginCall caller [.dequeueFrom 0]
  | .proceed caller =>
      match s.call caller with
      | some ops =>
          if s.inner.stack (.caller caller) = [.unlock .weaver] then s.proceed G.toForest caller ops
          else none
      | none => none

/-- The runs whose steps satisfy `ok`. -/
abbrev QueueRuns (G : Program J P σ) (ok : QueueState J P T σ → QueueAct J T → Prop)
    (start : Weaver.Start J P σ) (s : QueueState J P T σ) : Prop :=
  Library.RunWhere (queueStep G) ok (QueueState.init start) s

end Step

/-! ## Operations that need no more than the mutexes of jobs -/

/-- The operations of hooks and aborts that do not wait for the weaver mutex. -/
def Op.staysOut : Op J → Bool
  | requestAbort _ | stop _ | abortElements _ | abortElement _ | aboutToBeDequeued _
  | dequeueElements _ true | dequeueElement _ _ true | discount _ _ | checkLast _ | resetApi _
  | takeAt _ | removeBlocker _ | unlock (.job _) => true
  | _ => false

theorem Op.wants_of_staysOut {F : Forest J P σ} {op : Op J} (h : op.staysOut) :
    wants F op ≠ some .weaver := by
  cases op with
  | dequeueElement collection element queueApiIsLocked =>
      cases queueApiIsLocked with
      | true => simp [wants]
      | false => cases h
  | unlock mutex => simp [wants]
  | requestAbort _ | stop _ | abortElements _ | abortElement _ | aboutToBeDequeued _
  | dequeueElements _ _ | discount _ _ | checkLast _ | resetApi _ | takeAt _
  | removeBlocker _ => simp [wants]
  | _ => cases h

section Exec

variable [DecidableEq J] [DecidableEq P] {F : Forest J P σ} {op : Op J} {thread : Thread T}
  {d : Data J P T σ}

/-- They call only such operations, as long as no collection is stopped that the queue knows. -/
theorem Op.exec_staysOut (h : op.staysOut)
    (hstop : ∀ collection, op = .stop collection → d.api collection = false) :
    ∀ later ∈ (exec F thread op d).2, later.staysOut := by
  have hblocker : ∀ collection element, ∀ later ∈ elementDequeued F collection element,
      later.staysOut := by
    intro collection element later hlater
    unfold elementDequeued at hlater
    split at hlater
    · rw [List.mem_singleton.mp hlater]
      rfl
    · cases hlater
  cases op with
  | stop collection => simp [exec, hstop collection rfl]
  | requestAbort job =>
      simp only [exec]
      split <;> simp [staysOut]
  | abortElements collection => simp [exec, staysOut, or_imp, forall_and]
  | abortElement element =>
      simp only [exec]
      split <;> simp [staysOut]
  | aboutToBeDequeued job =>
      simp only [exec]
      split <;> simp [staysOut]
  | dequeueElements collection queueApiIsLocked =>
      cases queueApiIsLocked with
      | true =>
          simp only [exec]
          split <;> simp [staysOut, or_imp, forall_and]
      | false => cases h
  | dequeueElement collection element queueApiIsLocked =>
      cases queueApiIsLocked with
      | true =>
          simp only [exec, if_true]
          split
          · simpa [staysOut] using hblocker collection element
          · exact hblocker collection element
      | false => cases h
  | discount _ _ | checkLast _ | resetApi _ | takeAt _ | removeBlocker _ | unlock _ => simp [exec]
  | _ => cases h

end Exec

/-! ## Calls keep the mutex -/

namespace QueueState

/-- Every mutex is held by the thread that releases it, and a call to the queue does that after
operations that satisfy `p`. -/
structure Keeping [DecidableEq J] (p : Op J → Bool) (s : QueueState J P T σ) : Prop where
  locks : Custody Op.locks s.inner.data.lockOwner s.inner.stack
  calls : ∀ caller ops, s.call caller = some ops → ∃ inside,
    s.inner.stack (.caller caller) = inside ++ [.unlock .weaver] ∧ ∀ op ∈ inside, p op

variable [DecidableEq J] [DecidableEq P] [DecidableEq T] {F : Forest J P σ} {p : Op J → Bool}
  {s next : QueueState J P T σ} {caller : T} {ops : List (CallOp J)}

omit [DecidableEq P] [DecidableEq T] in
theorem Keeping.holder (h : s.Keeping p) (hcall : s.call caller = some ops) :
    s.inner.data.holder .weaver = some (.caller caller) := by
  obtain ⟨inside, hstack, -⟩ := h.calls caller ops hcall
  have hmem : .unlock .weaver ∈ s.inner.stack (.caller caller) := by simp [hstack]
  exact Data.lockOwner_eq_some.mp (h.locks.owner_eq hmem (by simp [Op.locks]))

omit [DecidableEq P] [DecidableEq T] in
theorem Keeping.call_eq_none (h : s.Keeping p) (hidle : s.inner.stack (.caller caller) = []) :
    s.call caller = none := by
  cases hcall : s.call caller with
  | none => rfl
  | some ops =>
      obtain ⟨inside, hstack, -⟩ := h.calls caller ops hcall
      simp [hidle] at hstack

omit [DecidableEq P] in
private theorem calls_update (h : s.Keeping p) {thread : Thread T} {stack : List (Op J)}
    (hthread : ∀ caller, thread = .caller caller → s.call caller = none) {caller : T}
    (hcall : s.call caller = some ops) : ∃ inside,
      Function.update s.inner.stack thread stack (.caller caller) = inside ++ [.unlock .weaver] ∧
        ∀ op ∈ inside, p op := by
  have hne : Thread.caller caller ≠ thread := by
    intro heq
    rw [hthread caller heq.symm] at hcall
    cases hcall
  rw [Function.update_of_ne hne]
  exact h.calls caller ops hcall

/-- A thread goes on with the next operation on its stack. -/
private theorem Keeping.runThread (h : s.Keeping p) {thread : Thread T} {inner : State J P T σ}
    (hmay : s.MayRun thread) (hrun : s.inner.runThread F thread = some inner)
    (hexec : ∀ caller op rest, thread = .caller caller → s.call caller ≠ none →
      s.inner.stack thread = op :: rest → p op →
      ∀ later ∈ (exec F thread op s.inner.data).2, p later) :
    Keeping p { s with inner := inner } := by
  obtain ⟨op, rest, hstack, hfree, rfl⟩ := State.runThread_eq_some hrun
  refine ⟨exec_locks h.locks hstack hfree, fun caller ops hcall => ?_⟩
  by_cases heq : thread = .caller caller
  · subst heq
    obtain ⟨inside, hinside, hall⟩ := h.calls caller ops hcall
    rw [hstack] at hinside
    cases inside with
    | nil =>
        rcases hmay with hnone | hnot
        · rw [hcall] at hnone
          cases hnone
        · rw [hstack, hinside] at hnot
          exact absurd rfl hnot
    | cons top inside =>
        obtain ⟨rfl, rfl⟩ := List.cons.inj hinside
        rw [List.forall_mem_cons] at hall
        refine ⟨(exec F (.caller caller) op s.inner.data).2 ++ inside, ?_, ?_⟩
        · simp
        · rw [List.forall_mem_append]
          have hcalled : s.call caller ≠ none := fun hnone => by
            rw [hnone] at hcall
            cases hcall
          exact ⟨hexec caller op _ rfl hcalled hstack hall.1, hall.2⟩
  · obtain ⟨inside, hinside, hall⟩ := h.calls caller ops hcall
    exact ⟨inside, (Function.update_of_ne (Ne.symm heq) _ _).trans hinside, hall⟩

omit [DecidableEq P] in
/-- A thread that has nothing to do begins a call that holds nothing. -/
private theorem Keeping.of_idle (h : s.Keeping p) {inner : State J P T σ} {stack : List (Op J)}
    (hidle : s.inner.stack (.caller caller) = [])
    (hholder : inner.data.holder = s.inner.data.holder)
    (hstack : inner.stack = Function.update s.inner.stack (.caller caller) stack)
    (hlocks : owed Op.locks stack = []) : Keeping p { s with inner := inner } where
  locks := by
    have howner : inner.data.lockOwner = s.inner.data.lockOwner := by
      funext mutex
      simp [Data.lockOwner, hholder]
    have hsplit : s.inner.stack (.caller caller) = [] ++ [] := hidle
    dsimp only
    rw [howner, hstack, ← List.append_nil stack]
    exact h.locks.keep hsplit hlocks
  calls other ops hcall := by
    dsimp only
    rw [hstack]
    refine calls_update h ?_ hcall
    rintro other hother
    cases hother
    exact h.call_eq_none hidle

/-- The other calls of the program. -/
private theorem Keeping.innerAct (h : s.Keeping p) {act : Act J T} {inner : State J P T σ}
    (hact : ∀ thread, act ≠ .run thread) (hstep : step F s.inner act = some inner) :
    Keeping p { s with inner := inner } := by
  cases act with
  | run thread => exact absurd rfl (hact thread)
  | enqueue caller jobs =>
      simp only [step, Option.ite_none_right_eq_some] at hstep
      obtain ⟨hidle, rfl⟩ := State.beginCall_eq_some hstep.2
      exact h.of_idle hidle rfl rfl rfl
  | stop caller collection =>
      simp only [step, Option.ite_none_left_eq_some] at hstep
      obtain ⟨hidle, rfl⟩ := State.beginCall_eq_some hstep.2
      exact h.of_idle hidle rfl rfl rfl
  | requestAbort caller job =>
      obtain ⟨hidle, rfl⟩ := State.beginCall_eq_some hstep
      exact h.of_idle hidle rfl rfl rfl
  | finish caller =>
      obtain ⟨hidle, rfl⟩ := State.beginCall_eq_some hstep
      exact h.of_idle hidle rfl rfl rfl

omit [DecidableEq P] in
/-- A call that keeps the weaver mutex begins. -/
private theorem Keeping.beginCall (h : s.Keeping p) (hstep : s.beginCall caller ops = some next) :
    next.Keeping p := by
  simp only [QueueState.beginCall, Option.ite_none_right_eq_some, Option.some.injEq] at hstep
  obtain ⟨⟨hidle, hfree⟩, rfl⟩ := hstep
  have hsplit : s.inner.stack (.caller caller) = [] ++ [] := hidle
  refine ⟨?_, fun other rest hcall => ?_⟩
  · dsimp only
    have hholder : (s.inner.data.lock .weaver (.caller caller)).holder =
        Function.update s.inner.data.holder .weaver (some (.caller caller)) := rfl
    rw [Data.lockOwner_of_holder hholder]
    have howed : owed Op.locks [(.unlock .weaver : Op J)] = [(.weaver, ())] := rfl
    exact h.locks.take hsplit rfl howed (by simp [Data.lockOwner, hfree])
  · dsimp only at hcall ⊢
    by_cases heq : other = caller
    · subst heq
      exact ⟨[], by rw [Function.update_self]; rfl, by simp⟩
    · rw [Function.update_of_ne heq] at hcall
      rw [Function.update_of_ne (by simpa using heq)]
      exact h.calls other rest hcall

/-- `dequeue` of a job that is in the queue. -/
private theorem Keeping.dequeue (h : s.Keeping p) {job : J}
    (hidle : s.inner.stack (.caller caller) = []) (hfree : s.inner.data.holder .weaver = none) :
    Keeping p { s with inner :=
      ⟨(exec F (.caller caller) (.dequeueSelf job) s.inner.data).1,
        Function.update s.inner.stack (.caller caller)
          (exec F (.caller caller) (.dequeueSelf job) s.inner.data).2⟩ } := by
  have hsplit : s.inner.stack (.caller caller) = [] ++ [] := hidle
  have hcalled := h.locks.keep hsplit (rfl : owed Op.locks [.dequeueSelf job] = _)
  refine ⟨?_, fun other rest hcall => ?_⟩
  · have hdone := exec_locks (F := F) hcalled (Function.update_self _ _ _) fun mutex hmutex => by
      rw [← Option.some.inj hmutex]
      exact hfree
    rw [Function.update_idem] at hdone
    simpa using hdone
  · refine calls_update h ?_ hcall
    rintro other hother
    cases hother
    exact h.call_eq_none hidle

omit [DecidableEq P] in
private theorem Keeping.goOn (h : s.Keeping p) (hstack : s.inner.stack (.caller caller) =
    [.unlock .weaver]) (rest : List (CallOp J)) : (s.goOn caller rest).Keeping p where
  locks := h.locks
  calls other ops hcall := by
    by_cases heq : other = caller
    · subst heq
      exact ⟨[], hstack, by simp⟩
    · exact h.calls other ops ((Function.update_of_ne heq _ _).symm.trans hcall)

omit [DecidableEq P] in
/-- The call calls an operation of a job. -/
private theorem Keeping.callOp (h : s.Keeping p) {op : Op J} (hop : p op)
    (hlocks : op.locks = []) (hstack : s.inner.stack (.caller caller) = [.unlock .weaver]) :
    (s.callOp caller op).Keeping p where
  locks := by
    have hnothing : owed Op.locks [op] = owed Op.locks [] := by simp [owed, hlocks]
    exact h.locks.keep (List.nil_append _).symm hnothing
  calls other ops hcall := by
    by_cases heq : other = caller
    · subst heq
      refine ⟨[op], ?_, by simpa using hop⟩
      show Function.update _ _ _ _ = _
      rw [Function.update_self, hstack]
      rfl
    · obtain ⟨inside, hinside, hall⟩ := h.calls other ops hcall
      exact ⟨inside, (Function.update_of_ne (by simpa using heq) _ _).trans hinside, hall⟩

/-- A call goes on. -/
private theorem Keeping.proceed (h : s.Keeping p) (habort : ∀ job, p (.requestAbort job))
    (hhook : ∀ job, p (.aboutToBeDequeued job)) (hcall : s.call caller = some ops)
    (hstack : s.inner.stack (.caller caller) = [.unlock .weaver])
    (hstep : s.proceed F caller ops = some next) : next.Keeping p := by
  match ops with
  | [] =>
      obtain ⟨inner, hrun, rfl⟩ := Option.map_eq_some_iff.mp hstep
      obtain ⟨op, rest, hop, hfree, rfl⟩ := State.runThread_eq_some hrun
      refine ⟨exec_locks h.locks hop hfree, fun other rest hother => ?_⟩
      dsimp only at hother ⊢
      have hne : other ≠ caller := by
        rintro rfl
        rw [Function.update_self] at hother
        cases hother
      rw [Function.update_of_ne hne] at hother
      obtain ⟨inside, hinside, hall⟩ := h.calls other _ hother
      exact ⟨inside, (Function.update_of_ne (by simpa using hne) _ _).trans hinside, hall⟩
  | .visit number :: rest =>
      simp only [QueueState.proceed, Option.ite_none_right_eq_some, Option.some.injEq] at hstep
      obtain ⟨-, rfl⟩ := hstep
      have hlocked : Keeping p
        { s with threadHolder := Function.update s.threadHolder number (some caller) } :=
        ⟨h.locks, h.calls⟩
      exact hlocked.goOn hstack _
  | .requestAbort (.decorator decoratee) :: rest =>
      rw [← Option.some.inj hstep]
      exact h.goOn hstack _
  | .requestAbort (.job job) :: rest =>
      rw [← Option.some.inj hstep]
      exact (h.goOn hstack _).callOp (habort job) rfl hstack
  | .unlockThread number :: rest =>
      rw [← Option.some.inj hstep]
      have hunlocked : Keeping p
        { s with threadHolder := Function.update s.threadHolder number none } :=
        ⟨h.locks, h.calls⟩
      exact hunlocked.goOn hstack _
  | .dequeueFrom index :: rest =>
      simp only [QueueState.proceed] at hstep
      split at hstep
      · rename_i job _
        rw [← Option.some.inj hstep]
        exact (h.goOn hstack _).callOp (hhook job) rfl hstack
      · rw [← Option.some.inj hstep]
        have hcleared : Keeping p (s.clear F) := ⟨h.locks, h.calls⟩
        exact hcleared.goOn hstack _

/-- Every step keeps the mutexes in custody, and what a call does within what satisfies `p`. -/
theorem Keeping.step {G : Program J P σ} (h : s.Keeping p) (habort : ∀ job, p (.requestAbort job))
    (hhook : ∀ job, p (.aboutToBeDequeued job)) {act : QueueAct J T}
    (hexec : ∀ caller op rest, act = .inner (.run (.caller caller)) → s.call caller ≠ none →
      s.inner.stack (.caller caller) = op :: rest → p op →
      ∀ later ∈ (exec G.toForest (.caller caller) op s.inner.data).2, p later)
    (hstep : queueStep G s act = some next) : next.Keeping p := by
  cases act with
  | inner act =>
      cases act with
      | run thread =>
          simp only [queueStep, Option.ite_none_right_eq_some] at hstep
          obtain ⟨hmay, hran⟩ := hstep
          obtain ⟨inner, hinner, rfl⟩ := Option.map_eq_some_iff.mp hran
          refine h.runThread hmay hinner ?_
          rintro caller op rest rfl
          exact hexec caller op rest rfl
      | enqueue _ _ | stop _ _ | requestAbort _ _ | finish _ =>
          obtain ⟨inner, hinner, rfl⟩ := Option.map_eq_some_iff.mp hstep
          exact h.innerAct (by simp) hinner
  | setJob number =>
      simp only [queueStep] at hstep
      split at hstep
      · rw [Option.ite_none_right_eq_some] at hstep
        rw [← Option.some.inj hstep.2]
        exact ⟨h.locks, h.calls⟩
      · cases hstep
  | clearJob number =>
      simp only [queueStep] at hstep
      split at hstep
      · rw [Option.ite_none_right_eq_some] at hstep
        rw [← Option.some.inj hstep.2]
        exact ⟨h.locks, h.calls⟩
      · cases hstep
  | requestAbort caller inventory => exact h.beginCall hstep
  | dequeue caller job =>
      simp only [queueStep, Option.ite_none_right_eq_some] at hstep
      obtain ⟨⟨hidle, hfree⟩, hstep⟩ := hstep
      split at hstep
      · rw [← Option.some.inj hstep]
        exact h.dequeue hidle hfree
      · rw [← Option.some.inj hstep]
        exact h
  | dequeueAll caller => exact h.beginCall hstep
  | proceed caller =>
      simp only [queueStep] at hstep
      split at hstep
      · rename_i ops hcall
        rw [Option.ite_none_right_eq_some] at hstep
        exact h.proceed habort hhook hcall hstep.1 hstep.2
      · cases hstep

omit [DecidableEq P] [DecidableEq T] in
theorem keeping_init (start : Weaver.Start J P σ) : (init (T := T) start).Keeping p where
  locks := Custody.empty fun thread => by cases thread <;> rfl
  calls _ _ h := by cases h

/-! ## Waiting for oneself -/

/-- The thread waits for the weaver mutex, which it holds itself. -/
def LockedOut (F : Forest J P σ) (s : QueueState J P T σ) (thread : Thread T) : Prop :=
  s.inner.data.holder .weaver = some thread ∧
    ∃ op rest, s.inner.stack thread = op :: rest ∧ wants F op = some .weaver

end QueueState

section Runs

variable [DecidableEq J] [DecidableEq P] [DecidableEq T] {G : Program J P σ}
  {start : Weaver.Start J P σ} {s next : QueueState J P T σ} {caller : T}
  {ops : List (CallOp J)}

/-- A call that keeps the weaver mutex stops no collection that the queue still knows. -/
def StopsReleased (s : QueueState J P T σ) : QueueAct J T → Prop
  | .inner (.run (.caller caller)) => s.call caller ≠ none → ∀ collection,
      (s.inner.stack (.caller caller)).head? = some (.stop collection) →
        s.inner.data.api collection = false
  | _ => True

instance [Fintype J] (s : QueueState J P T σ) (act : QueueAct J T) :
    Decidable (StopsReleased s act) := by
  unfold StopsReleased
  split <;> infer_instance

theorem stack_of_begins {F : Forest J P σ} {before after : State J P T σ} {act : Act J T}
    (hact : ∀ thread, act ≠ .run thread) (hstep : step F before act = some after) :
    before.stack act.thread = [] := by
  cases act with
  | run thread => exact absurd rfl (hact thread)
  | enqueue caller jobs =>
      simp only [step, Option.ite_none_right_eq_some] at hstep
      exact (State.beginCall_eq_some hstep.2).1
  | stop caller collection =>
      simp only [step, Option.ite_none_left_eq_some] at hstep
      exact (State.beginCall_eq_some hstep.2).1
  | requestAbort _ _ | finish _ => exact (State.beginCall_eq_some hstep).1

theorem runs_keeping {ok : QueueState J P T σ → QueueAct J T → Prop}
    (hrun : QueueRuns G ok start s) : s.Keeping fun _ => true :=
  hrun.invariant (QueueState.keeping_init start) fun _ _ _ h _ hstep =>
    h.step (fun _ => rfl) (fun _ => rfl) (fun _ _ _ _ _ _ _ _ _ => rfl) hstep

theorem runs_staysOut (hrun : QueueRuns G StopsReleased start s) : s.Keeping Op.staysOut := by
  refine hrun.invariant (QueueState.keeping_init start) fun s act next h hok hstep => ?_
  refine h.step (fun _ => rfl) (fun _ => rfl) ?_ hstep
  rintro caller op rest rfl hcall hstack hop
  refine Op.exec_staysOut hop ?_
  rintro collection rfl
  exact hok hcall collection (by rw [hstack]; rfl)

/-- **A call that keeps the weaver mutex never waits for it**, in a run in which such calls stop
no collection that the queue still knows. -/
theorem requestAbort_not_locked_out (hrun : QueueRuns G StopsReleased start s)
    (hcall : s.call caller = some ops) :
    s.inner.data.holder .weaver = some (.caller caller) ∧
      ¬ s.LockedOut G.toForest (.caller caller) := by
  have hkeeping := runs_staysOut hrun
  refine ⟨hkeeping.holder hcall, ?_⟩
  rintro ⟨-, op, rest, hstack, hwants⟩
  obtain ⟨inside, hinside, hall⟩ := hkeeping.calls caller ops hcall
  rw [hstack] at hinside
  cases inside with
  | nil =>
      obtain ⟨rfl, -⟩ := List.cons.inj hinside
      simp [wants] at hwants
  | cons top inside =>
      obtain ⟨rfl, -⟩ := List.cons.inj hinside
      exact Op.wants_of_staysOut (hall op List.mem_cons_self) hwants

/-- A call that stops a collection the queue knows waits for itself. -/
theorem locked_out_of_api (h : s.Keeping fun _ => true) (hcall : s.call caller = some ops)
    {collection : J} {rest : List (Op J)}
    (hstack : s.inner.stack (.caller caller) = .stop collection :: rest)
    (hapi : s.inner.data.api collection = true)
    (hstep : queueStep G s (.inner (.run (.caller caller))) = some next) :
    next.LockedOut G.toForest (.caller caller) := by
  have hkeeping : next.Keeping fun _ => true :=
    h.step (fun _ => rfl) (fun _ => rfl) (fun _ _ _ _ _ _ _ _ _ => rfl) hstep
  simp only [queueStep, Option.ite_none_right_eq_some] at hstep
  obtain ⟨-, hran⟩ := hstep
  obtain ⟨inner, hinner, rfl⟩ := Option.map_eq_some_iff.mp hran
  obtain ⟨op, below, hop, -, rfl⟩ := State.runThread_eq_some hinner
  rw [hstack] at hop
  obtain ⟨rfl, rfl⟩ := List.cons.inj hop
  refine ⟨hkeeping.holder hcall, .dequeueSelf collection, rest, ?_, rfl⟩
  simp [exec, hapi]

/-- It waits for ever. -/
theorem QueueState.LockedOut.step (h : s.Keeping fun _ => true) (hcall : s.call caller = some ops)
    (hlocked : s.LockedOut G.toForest (.caller caller)) {act : QueueAct J T}
    (hstep : queueStep G s act = some next) :
    next.call caller = some ops ∧ next.LockedOut G.toForest (.caller caller) := by
  obtain ⟨hholder, op, rest, hstack, hwants⟩ := hlocked
  have hkeeping : next.Keeping fun _ => true :=
    h.step (fun _ => rfl) (fun _ => rfl) (fun _ _ _ _ _ _ _ _ _ => rfl) hstep
  suffices hsame : next.call caller = s.call caller ∧
      next.inner.stack (.caller caller) = s.inner.stack (.caller caller) by
    have hnext := hsame.1.trans hcall
    exact ⟨hnext, hkeeping.holder hnext, op, rest, hsame.2.trans hstack, hwants⟩
  have hidle : s.inner.stack (.caller caller) ≠ [] := by simp [hstack]
  cases act with
  | inner act =>
      cases act with
      | run thread =>
          simp only [queueStep, Option.ite_none_right_eq_some] at hstep
          obtain ⟨-, hran⟩ := hstep
          obtain ⟨inner, hinner, rfl⟩ := Option.map_eq_some_iff.mp hran
          have hran : step G.toForest s.inner (.run thread) = some inner := hinner
          refine ⟨rfl, step_stack_of_ne G.toForest hran ?_⟩
          rintro rfl
          obtain ⟨top, below, htop, hfree, -⟩ := State.runThread_eq_some hinner
          rw [hstack] at htop
          obtain ⟨rfl, rfl⟩ := List.cons.inj htop
          rw [hfree _ hwants] at hholder
          cases hholder
      | enqueue other _ | stop other _ | requestAbort other _ | finish other =>
          obtain ⟨inner, hinner, rfl⟩ := Option.map_eq_some_iff.mp hstep
          refine ⟨rfl, step_stack_of_ne G.toForest hinner ?_⟩
          intro heq
          exact hidle (heq ▸ stack_of_begins (by simp) hinner)
  | setJob number =>
      simp only [queueStep] at hstep
      split at hstep
      · rw [Option.ite_none_right_eq_some] at hstep
        rw [← Option.some.inj hstep.2]
        exact ⟨rfl, rfl⟩
      · cases hstep
  | clearJob number =>
      simp only [queueStep] at hstep
      split at hstep
      · rw [Option.ite_none_right_eq_some] at hstep
        rw [← Option.some.inj hstep.2]
        exact ⟨rfl, rfl⟩
      · cases hstep
  | requestAbort _ _ | dequeueAll _ =>
      simp [queueStep, QueueState.beginCall, hholder] at hstep
  | dequeue _ _ => simp [queueStep, hholder] at hstep
  | proceed other =>
      simp only [queueStep] at hstep
      split at hstep
      · rename_i ops' hother
        have hsame := (h.holder hother).symm.trans hholder
        cases hsame
        rw [Option.ite_none_right_eq_some, hstack] at hstep
        obtain ⟨rfl, -⟩ := List.cons.inj hstep.1
        simp [wants] at hwants
      · cases hstep

/-- It waits for ever, and nobody else gets the weaver mutex. -/
theorem QueueState.LockedOut.forever (h : s.Keeping fun _ => true)
    (hcall : s.call caller = some ops) (hlocked : s.LockedOut G.toForest (.caller caller))
    {ok : QueueState J P T σ → QueueAct J T → Prop}
    (hrun : Library.RunWhere (queueStep G) ok s next) :
    next.LockedOut G.toForest (.caller caller) := by
  suffices hall : next.Keeping (fun _ => true) ∧ next.call caller = some ops ∧
      next.LockedOut G.toForest (.caller caller) from hall.2.2
  refine hrun.invariant (I := fun s => s.Keeping (fun _ => true) ∧ s.call caller = some ops ∧
    s.LockedOut G.toForest (.caller caller)) ⟨h, hcall, hlocked⟩ ?_
  rintro before act after ⟨hkeeping, hbefore, hstuck⟩ - hstep
  refine ⟨?_, hstuck.step hkeeping hbefore hstep⟩
  exact hkeeping.step (fun _ => rfl) (fun _ => rfl) (fun _ _ _ _ _ _ _ _ _ => rfl) hstep

end Runs

/-- The pair of a Collection and its element, in decorators. -/
def decoratedPair : Program (Fin 2) Empty Unit where
  toForest := pair
  pointer job := .decorator (.decorator (.job job))
  decorated_pointer _ := rfl

/-- The element is executed when the abort reaches it through its decorators. -/
theorem requestAbort_not_locked_out_element : ∃ s : QueueState (Fin 2) Empty Unit Unit,
    s.call () = some [] ∧ s.inner.data.shouldAbort 1 = true ∧
      s.inner.data.holder .weaver = some (.caller ()) ∧
      ¬ s.LockedOut decoratedPair.toForest (.caller ()) := by
  obtain ⟨s, hrun, hcall, habort⟩ : ∃ s : QueueState (Fin 2) Empty Unit Unit,
      QueueRuns decoratedPair StopsReleased (.plain ()) s ∧ _ :=
    Library.exists_runWhere
      (fun s => s.call () = some [] ∧ s.inner.data.shouldAbort 1 = true)
      (List.flatten [[.inner (.enqueue () [0])], List.replicate 3 (.inner (.run (.caller ()))),
        List.replicate 2 (.inner (.run (.worker 0))), [.setJob 0],
        List.replicate 11 (.inner (.run (.worker 0))), [.clearJob 0],
        List.replicate 2 (.inner (.run (.worker 0))), [.setJob 0],
        [.inner (.run (.worker 0)), .requestAbort () [0]], List.replicate 4 (.proceed ()),
        [.inner (.run (.caller ())), .proceed ()]]) (by decide +kernel)
  exact ⟨s, hcall, habort, requestAbort_not_locked_out hrun hcall⟩

/-- **`Weaver::requestAbort` can lock itself out.**  The Collection is executed when the abort
reaches it; its stop goes back to the queue and waits for the mutex of its own caller. -/
theorem requestAbort_locked_out : ∃ s : QueueState (Fin 2) Empty Unit Unit,
    QueueRuns decoratedPair (fun _ _ => True) (.plain ()) s ∧ s.call () ≠ none ∧
      s.LockedOut decoratedPair.toForest (.caller ()) := by
  obtain ⟨s, hrun, hcall, hholder, hhead⟩ : ∃ s : QueueState (Fin 2) Empty Unit Unit,
      QueueRuns decoratedPair (fun _ _ => True) (.plain ()) s ∧ _ :=
    Library.exists_runWhere
      (fun s => s.call () ≠ none ∧ s.inner.data.holder .weaver = some (.caller ()) ∧
        (s.inner.stack (.caller ())).head? = some (.dequeueSelf 0))
      (List.flatten [[.inner (.enqueue () [0])], List.replicate 3 (.inner (.run (.caller ()))),
        List.replicate 2 (.inner (.run (.worker 0))), [.setJob 0, .inner (.run (.worker 0)),
        .requestAbort () [0]], List.replicate 4 (.proceed ()),
        List.replicate 2 (.inner (.run (.caller ())))]) (by decide +kernel)
  obtain ⟨rest, hstack⟩ := List.head?_eq_some_iff.mp hhead
  exact ⟨s, hrun, hcall, hholder, _, rest, hstack, rfl⟩

end ThreadWeaver.Collection
