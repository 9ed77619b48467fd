import ThreadWeaver.Collection.Inversion
import ThreadWeaver.DequeueAll

/-!
# Chains of executors

The executors of a job are a chain: `addJob` puts the `CollectionExecuteWrapper` of the
collection around what the job has, `aboutToBeQueued` of a collection its self wrapper and a
`CollectionExecuteWrapper` of its own.  `Execution` runs the operations of the threads with the
chains in them: `begin` is unfolded along the chain, so that between the operations on a stack
stand the calls of `defaultBegin`.  Without these calls it is the model of the threads
(`Execution.step_state`, `exists_execution`).

A `CollectionExecuteWrapper` calls `begin` of the executor in it twice, before and after
`elementStarted`, so that the innermost `begin` of an element is called twice
(`begin_run_end_iff`).
-/

namespace ThreadWeaver

/-! ## Executors -/

namespace Collection

/-- The virtual functions of a job that its innermost executor calls. -/
inductive Hook (J : Type*)
  | defaultBegin (job : J)
  | run (job : J)
  | defaultEnd (job : J)
  deriving DecidableEq, Repr

/-- The job whose function it is. -/
def Hook.job {J : Type*} : Hook J → J
  | defaultBegin job | run job | defaultEnd job => job

/-- What a thread has still to do: an operation, or a call of `defaultBegin` between two of
them.  The other hooks are called by `Op.run` and `Op.defaultEnd`. -/
inductive Entry (J : Type*)
  | op (op : Op J)
  | defaultBegin (job : J)
  deriving DecidableEq, Repr

def Entry.op? {J : Type*} : Entry J → Option (Op J)
  | op operation => some operation
  | defaultBegin _ => none

end Collection

namespace Executor

open Collection (Op Entry)

variable {J : Type*}

/-- The executors of a job around which each of the collections has put its wrapper by
`Collection::addJob`, the last of the list first. -/
def added (collections : List J) : List (Executor J) :=
  collections.foldr (fun outer chain => .collection outer :: chain) [.default]

/-- What `Collection::aboutToBeQueued_locked` puts around the executors of the collection. -/
def aboutToBeQueued (collection : J) (chain : List (Executor J)) : List (Executor J) :=
  .collection collection :: .self collection :: chain

/-- `begin` of the first executor of a chain.  That of a self wrapper only stores the job and
the thread for `callBegin`. -/
def begin (job : J) : List (Executor J) → List (Entry J)
  | [] => []
  | .default :: _ => [.defaultBegin job]
  | .collection outer :: chain =>
      begin job chain ++ .op (.elementStarted outer) :: begin job chain
  | .self _ :: _ => []

/-- `execute` of the first executor of a chain. -/
def execute (job : J) : List (Executor J) → List (Op J)
  | [] => []
  | .default :: _ => [.run job]
  | .collection _ :: chain | .self _ :: chain => execute job chain

/-- `end` of the first executor of a chain. -/
def «end» (job : J) : List (Executor J) → List (Op J)
  | [] => []
  | .default :: _ => [.defaultEnd job]
  | .collection outer :: chain => «end» job chain ++ [.elementFinished outer job]
  | .self _ :: _ => []

/-- **The innermost `begin` is called twice as often for each wrapper around it.** -/
theorem count_begin_added [DecidableEq J] (job : J) (collections : List J) :
    (begin job (added collections)).count (.defaultBegin job) = 2 ^ collections.length := by
  induction collections with
  | nil => simp [added, begin]
  | cons outer collections ih =>
      have hbegin : begin job (added (outer :: collections)) =
          begin job (added collections) ++
            .op (.elementStarted outer) :: begin job (added collections) := rfl
      calc (begin job (added (outer :: collections))).count (.defaultBegin job)
          = (begin job (added collections)).count (.defaultBegin job) +
              (begin job (added collections)).count (.defaultBegin job) := by
            rw [hbegin, List.count_append, List.count_cons]
            simp
        _ = 2 ^ (outer :: collections).length := by
            rw [ih, List.length_cons, pow_succ]
            omega

theorem eq_of_mem_begin {job other : J} {chain : List (Executor J)}
    (h : .defaultBegin other ∈ begin job chain) : other = job := by
  induction chain with
  | nil => cases h
  | cons executor chain ih =>
      cases executor with
      | default => simpa [begin] using h
      | collection outer =>
          rcases List.mem_append.mp h with h | h
          · exact ih h
          · exact ih (by simpa using h)
      | self outer => cases h

end Executor

namespace Collection

open Library (Stacked)

variable {J P T σ : Type*}

/-- The executors that a job has when it is enqueued as an element, or by the program. -/
def Forest.added (F : Forest J P σ) (job : J) : List (Executor J) :=
  Executor.added (F.parent job).toList

/-- The executors that a job has when it is executed. -/
def Forest.executors (F : Forest J P σ) (job : J) : List (Executor J) :=
  if F.kind job = .plain then F.added job else Executor.aboutToBeQueued job (F.added job)

/-! ## Threads with executors -/

/-- The data shared by the threads, what each of them has still to do, and the hooks that have
been called. -/
structure Execution (J P T σ : Type*) where
  data : Data J P T σ
  stack : Thread T → List (Entry J)
  hooks : List (Hook J)

/-- The hook that an operation calls. -/
def Op.hook? : Op J → Option (Hook J)
  | run job => some (.run job)
  | defaultEnd job => some (.defaultEnd job)
  | _ => none

/-- The execution without the calls of `defaultBegin`. -/
def Execution.state (x : Execution J P T σ) : State J P T σ where
  data := x.data
  stack thread := (x.stack thread).filterMap Entry.op?

/-- The hooks of a job that have been called. -/
def Execution.hooksOf [DecidableEq J] (x : Execution J P T σ) (job : J) : List (Hook J) :=
  x.hooks.filter fun hook => hook.job = job

section Step

variable [DecidableEq J] [DecidableEq P] (F : Forest J P σ)

/-- What is left to be done after an operation. -/
def entries (thread : Thread T) (d : Data J P T σ) : Op J → List (Entry J)
  | .execute job => Executor.begin job (F.executors job) ++ [.op (.setRunning job)]
  | .elementStarted collection =>
      -- `callBegin` goes on to the executors inside the self wrapper
      (if d.jobsStarted collection = 0 then
        Executor.begin collection (F.added collection) else []) ++
        [.op (.unlock (.job collection))]
  | op => (exec F thread op d).2.map .op

namespace Execution

variable [DecidableEq T]

/-- The thread does the operation at the top of its stack. -/
def perform (thread : Thread T) (op : Op J) (rest : List (Entry J)) (x : Execution J P T σ) :
    Execution J P T σ where
  data := (exec F thread op x.data).1
  stack := Function.update x.stack thread (entries F thread x.data op ++ rest)
  hooks := x.hooks ++ op.hook?.toList

/-- The thread calls `defaultBegin`. -/
def callDefaultBegin (thread : Thread T) (job : J) (rest : List (Entry J))
    (x : Execution J P T σ) : Execution J P T σ where
  data := x.data
  stack := Function.update x.stack thread rest
  hooks := x.hooks ++ [.defaultBegin job]

/-- The next operation of a thread, or the next call of `defaultBegin`. -/
def runThread (thread : Thread T) (x : Execution J P T σ) : Option (Execution J P T σ) :=
  match x.stack thread with
  | [] => none
  | .defaultBegin job :: rest => some (x.callDefaultBegin thread job rest)
  | .op op :: rest =>
      if (wants F op).all (fun mutex => x.data.holder mutex = none) then
        some (x.perform F thread op rest)
      else none

/-- One step of the threads. -/
def step (x : Execution J P T σ) (act : Act J T) : Option (Execution J P T σ) :=
  match act with
  | .run thread => x.runThread F thread
  | act =>
      if x.stack act.thread = [] then
        (Collection.step F x.state act).map fun next =>
          { data := next.data
            stack := Function.update x.stack act.thread ((next.stack act.thread).map .op)
            hooks := x.hooks }
      else none

end Execution

/-- No hook has been called, and nobody has one to call. -/
def Execution.init (start : Weaver.Start J P σ) : Execution J P T σ where
  data := (Collection.init start : State J P T σ).data
  stack thread := ((Collection.init start : State J P T σ).stack thread).map .op
  hooks := []

/-- The executions whose steps satisfy `ok`. -/
abbrev Executions [DecidableEq T] (ok : State J P T σ → Act J T → Prop)
    (start : Weaver.Start J P σ) (x : Execution J P T σ) : Prop :=
  Library.RunWhere (Execution.step F) (fun x act => ok x.state act) (Execution.init start) x

end Step

/-! ## Executions and runs -/

section Erasure

variable [DecidableEq J] [DecidableEq P] {F : Forest J P σ} {x next : Execution J P T σ}
  {thread : Thread T}

omit [DecidableEq J] [DecidableEq P] in
theorem ops_map (ops : List (Op J)) : (ops.map Entry.op).filterMap Entry.op? = ops := by
  rw [List.filterMap_map]
  exact List.filterMap_some

omit [DecidableEq J] [DecidableEq P] in
@[simp] theorem mem_state_stack {op : Op J} :
    op ∈ x.state.stack thread ↔ .op op ∈ x.stack thread := by
  simp only [Execution.state, List.mem_filterMap]
  constructor
  · rintro ⟨entry, hmem, heq⟩
    cases entry with
    | op other =>
        cases heq
        exact hmem
    | defaultBegin job => cases heq
  · intro hmem
    exact ⟨_, hmem, rfl⟩

omit [DecidableEq J] [DecidableEq P] in
theorem ops_begin_added (F : Forest J P σ) (job : J) :
    (Executor.begin job (F.added job)).filterMap Entry.op? = beginElement F job := by
  unfold Forest.added beginElement
  cases F.parent job <;> rfl

/-- **The chain of executors calls what the threads do.** -/
theorem ops_entries (F : Forest J P σ) (thread : Thread T) (d : Data J P T σ) (op : Op J) :
    (entries F thread d op).filterMap Entry.op? = (exec F thread op d).2 := by
  cases op with
  | execute job =>
      by_cases hkind : F.kind job = .plain
      · simp only [entries, exec, Forest.executors, if_pos hkind, List.filterMap_append,
          ops_begin_added]
        rfl
      · simp only [entries, exec, Forest.executors, if_neg hkind]
        rfl
  | elementStarted collection =>
      simp only [entries, exec, List.filterMap_append]
      congr 1
      split
      · exact ops_begin_added F collection
      · rfl
  | _ => exact ops_map _

/-- `execute` of the executors of a job calls `run`, which may set the status before it ends. -/
theorem execute_executors (F : Forest J P σ) (thread : Thread T) (d : Data J P T σ) (job : J) :
    setInRun F job ++ Executor.execute job (F.executors job) =
      (exec F thread (.setRunning job) d).2 := by
  have hadded : Executor.execute job (F.added job) = [.run job] := by
    unfold Forest.added
    cases F.parent job <;> rfl
  have hexecute : Executor.execute job (F.executors job) = [.run job] := by
    unfold Forest.executors
    split
    · exact hadded
    · exact hadded
  rw [hexecute]
  rfl

/-- `end` of the executors that a job had before it was enqueued calls `defaultEnd`, and what
`defaultEnd` leaves to be done in the model of the threads. -/
theorem end_added (F : Forest J P σ) (thread : Thread T) (d : Data J P T σ) (job : J) :
    Executor.«end» job (F.added job) = .defaultEnd job :: (exec F thread (.defaultEnd job) d).2 := by
  unfold Forest.added
  simp only [exec]
  cases F.parent job <;> rfl

/-- `end` of the executors of a collection tells it about its own job. -/
theorem end_executors (F : Forest J P σ) (thread : Thread T) (d : Data J P T σ) {collection : J}
    (hkind : F.kind collection ≠ .plain) :
    Executor.«end» collection (F.executors collection) =
      (exec F thread (.run collection) d).2 := by
  simp only [Forest.executors, exec, if_neg hkind]
  rfl

variable [DecidableEq T]

/-- What a step of a thread is. -/
theorem Execution.runThread_eq_some (h : x.runThread F thread = some next) :
    (∃ job rest, x.stack thread = .defaultBegin job :: rest ∧
      next = x.callDefaultBegin thread job rest) ∨
    ∃ op rest, x.stack thread = .op op :: rest ∧
      (∀ mutex, wants F op = some mutex → x.data.holder mutex = none) ∧
      next = x.perform F thread op rest := by
  unfold Execution.runThread at h
  cases hstack : x.stack thread with
  | nil => simp [hstack] at h
  | cons entry rest =>
      cases entry with
      | defaultBegin job =>
          simp only [hstack] at h
          exact .inl ⟨job, rest, rfl, (Option.some.inj h).symm⟩
      | op op =>
          simp only [hstack] at h
          split at h
          · rename_i hfree
            refine .inr ⟨op, rest, rfl, ?_, (Option.some.inj h).symm⟩
            intro mutex hwants
            rw [hwants] at hfree
            simpa using hfree
          · cases h

/-- What a step is. -/
theorem Execution.step_eq_some {act : Act J T} (h : x.step F act = some next) :
    (∃ thread, act = .run thread ∧ x.runThread F thread = some next) ∨
    (∀ thread, act ≠ .run thread) ∧ x.stack act.thread = [] ∧
      ∃ mid, Collection.step F x.state act = some mid ∧
      next =
        { data := mid.data
          stack := Function.update x.stack act.thread ((mid.stack act.thread).map .op)
          hooks := x.hooks } := by
  have hcall : (if x.stack act.thread = [] then
        (Collection.step F x.state act).map fun mid =>
          { data := mid.data
            stack := Function.update x.stack act.thread ((mid.stack act.thread).map .op)
            hooks := x.hooks }
      else none) = some next →
      x.stack act.thread = [] ∧ ∃ mid, Collection.step F x.state act = some mid ∧
        next =
          { data := mid.data
            stack := Function.update x.stack act.thread ((mid.stack act.thread).map .op)
            hooks := x.hooks } := by
    intro hsome
    split at hsome
    · rename_i hidle
      obtain ⟨mid, hmid, heq⟩ := Option.map_eq_some_iff.mp hsome
      exact ⟨hidle, mid, hmid, heq.symm⟩
    · cases hsome
  cases act with
  | run thread => exact .inl ⟨thread, rfl, h⟩
  | enqueue | stop | requestAbort | finish => exact .inr ⟨nofun, hcall h⟩

omit [DecidableEq J] [DecidableEq P] in
theorem Execution.state_update {d : Data J P T σ} {hooks : List (Hook J)}
    {stack : List (Entry J)} :
    Execution.state ⟨d, Function.update x.stack thread stack, hooks⟩ =
      ⟨d, Function.update x.state.stack thread (stack.filterMap Entry.op?)⟩ := by
  simp only [Execution.state, State.mk.injEq, true_and]
  funext other
  by_cases hother : other = thread
  · rw [hother, Function.update_self, Function.update_self]
  · rw [Function.update_of_ne hother, Function.update_of_ne hother]

theorem Execution.perform_state (x : Execution J P T σ) (op : Op J) (rest : List (Entry J)) :
    (x.perform F thread op rest).state =
      ⟨(exec F thread op x.data).1, Function.update x.state.stack thread
        ((exec F thread op x.data).2 ++ rest.filterMap Entry.op?)⟩ := by
  rw [perform, state_update, List.filterMap_append, ops_entries]

omit [DecidableEq J] [DecidableEq P] in
theorem Execution.callDefaultBegin_state {job : J} {rest : List (Entry J)}
    (hstack : x.stack thread = .defaultBegin job :: rest) :
    (x.callDefaultBegin thread job rest).state = x.state := by
  rw [callDefaultBegin, state_update]
  refine congrArg (State.mk x.data) (Function.update_eq_self_iff.mpr ?_)
  simp only [Execution.state, hstack]
  rfl

/-- The beginning of a call changes the stack of the caller. -/
theorem Execution.state_of_call {act : Act J T} {mid : State J P T σ}
    (h : Collection.step F x.state act = some mid) :
    Execution.state ⟨mid.data, Function.update x.stack act.thread
      ((mid.stack act.thread).map .op), x.hooks⟩ = mid := by
  rw [state_update, ops_map]
  refine congrArg (State.mk mid.data) (funext fun other => ?_)
  by_cases hother : other = act.thread
  · rw [hother, Function.update_self]
  · rw [Function.update_of_ne hother]
    exact (step_stack_of_ne F h hother).symm

/-- **A step of an execution is a step of the threads**, or a call of `defaultBegin`. -/
theorem Execution.step_state {act : Act J T} (h : x.step F act = some next) :
    next.state = x.state ∨ Collection.step F x.state act = some next.state := by
  rcases step_eq_some h with ⟨thread, rfl, hrun⟩ | ⟨-, -, mid, hmid, rfl⟩
  · rcases runThread_eq_some hrun with ⟨job, rest, hstack, rfl⟩ | ⟨op, rest, hstack, hfree, rfl⟩
    · exact .inl (callDefaultBegin_state hstack)
    · right
      have hstate : x.state.stack thread = op :: rest.filterMap Entry.op? := by
        simp only [Execution.state, hstack]
        rfl
      have hready : (wants F op).all (fun mutex => x.state.data.holder mutex = none) = true := by
        cases hwants : wants F op with
        | none => rfl
        | some mutex => exact decide_eq_true (hfree mutex hwants)
      rw [perform_state]
      simp only [Collection.step, State.runThread, hstate]
      exact if_pos hready
  · exact .inr (by rw [hmid, state_of_call hmid])

/-- **Every execution is a run.** -/
theorem executions_runs {ok : State J P T σ → Act J T → Prop} {start : Weaver.Start J P σ}
    (run : Executions F ok start x) : Runs F ok start x.state := by
  induction run with
  | refl =>
      have hinit : (Execution.init start : Execution J P T σ).state = init start := by
        simp only [Execution.state, Execution.init, ops_map]
      rw [hinit]
      exact .refl
  | @tail mid last act _ hok hstep ih =>
      rcases Execution.step_state hstep with hsame | hmain
      · rwa [hsame]
      · exact ih.tail hok hmain

end Erasure

/-! ## What lies under the calls -/

/-- What lies under an entry.  `begin` of a job is called by its `execute`, which sets the status
afterwards; `elementStarted` is called by `begin` of the collection or of an element. -/
def Begins (F : Forest J P σ) : Entry J → List (Entry J) → Prop
  | .defaultBegin job, rest => .op (.setRunning job) ∈ rest
  | .op (.elementStarted collection), rest => F.kind collection ≠ .plain ∧
      (.op (.setRunning collection) ∈ rest ∨
        ∃ job, F.parent job = some collection ∧ .op (.setRunning job) ∈ rest)
  | _, _ => True

/-- How often the wrappers around the executor of a job call its `begin`. -/
def Forest.begins (F : Forest J P σ) (job : J) : ℕ :=
  2 ^ (F.parent job).toList.length

section Counted

variable [DecidableEq J] {F : Forest J P σ}

/-- All calls of `begin` of the job have been made, and then these. -/
def Execution.Begun (F : Forest J P σ) (x : Execution J P T σ) (job : J)
    (hooks : List (Hook J)) : Prop :=
  (F.kind job ≠ .plain → x.data.jobsStarted job ≠ 0) ∧
    x.hooksOf job = List.replicate (F.begins job) (.defaultBegin job) ++ hooks

/-- The hooks of a job that have been called, by how far the job has got.  A collection comes to
its calls of `begin` by the first `elementStarted`. -/
structure Execution.Counted (F : Forest J P σ) (x : Execution J P T σ) (job : J) : Prop where
  before : (x.data.place job).isStarted = false →
    x.data.jobsStarted job = 0 ∧ x.hooksOf job = []
  begins : ∀ thread, .op (.setRunning job) ∈ x.stack thread →
    F.kind job ≠ .plain ∧ x.data.jobsStarted job = 0 ∧ x.hooksOf job = [] ∧
        .op (.elementStarted job) ∈ x.stack thread ∧
        .defaultBegin job ∉ x.stack thread ∨
      (F.kind job ≠ .plain → x.data.jobsStarted job ≠ 0) ∧
        ∃ n, x.hooksOf job = List.replicate n (.defaultBegin job) ∧
          n + (x.stack thread).count (.defaultBegin job) = F.begins job
  run : ∀ thread, .op (.run job) ∈ x.stack thread → x.Begun F job []
  finish : ∀ thread, .op (.elementFinished job job) ∈ x.stack thread →
    x.Begun F job [.run job]
  late : (x.data.place job).isLate = true →
    x.Begun F job (.run job :: if (x.data.place job).isEnded then [.defaultEnd job] else [])

/-- Every job has had the calls that are due, and the others lie on what makes them. -/
structure Execution.Hooked (F : Forest J P σ) (x : Execution J P T σ) : Prop where
  stacked : ∀ thread, Stacked (Begins F) (x.stack thread)
  counted : ∀ job, x.Counted F job

variable [DecidableEq P] [DecidableEq T] {x next : Execution J P T σ}
  {thread : Thread T} {rest : List (Entry J)} {op : Op J} {job collection : J}

/-! ## Inversions -/

omit [DecidableEq T] in
theorem exec_jobsStarted (F : Forest J P σ) (thread : Thread T) (op : Op J) (d : Data J P T σ)
    (job : J) :
    (exec F thread op d).1.jobsStarted job = d.jobsStarted job ∨ op = .elementStarted job := by
  by_cases hop : ∃ collection, op = .elementStarted collection
  · obtain ⟨collection, rfl⟩ := hop
    by_cases heq : job = collection
    · exact .inr (heq ▸ rfl)
    · exact .inl (Function.update_of_ne heq _ _)
  · left
    cases op with
    | elementStarted collection => exact absurd ⟨collection, rfl⟩ hop
    | applyForWork wasBusy => cases wasBusy <;> rfl
    | takeFirst candidates =>
        cases candidates with
        | nil => rfl
        | cons head candidates =>
            simp only [exec]
            split <;> rfl
    | defaultEnd head =>
        simp only [exec]
        cases F.parent head <;> rfl
    | elementFinished collection head =>
        simp only [exec]
        split
        · split <;> rfl
        · rfl
    | processCompletedElement collection head =>
        simp only [exec]
        split
        · split <;> rfl
        · rfl
    | dequeueElement collection element locked =>
        simp only [exec]
        split
        · split <;> rfl
        · rfl
    | finish | execute | run | countDown | dequeueSelf | checkLast | aboutToBeDequeued =>
        simp only [exec]
        split <;> rfl
    | _ => rfl

omit [DecidableEq T] in
/-- Who calls `begin` of a job. -/
theorem count_entries (F : Forest J P σ) (thread : Thread T) (d : Data J P T σ) (op : Op J)
    (job : J) (hexecute : op ≠ .execute job)
    (hstarted : op = .elementStarted job → d.jobsStarted job ≠ 0) :
    (entries F thread d op).count (.defaultBegin job) = 0 := by
  refine List.count_eq_zero.mpr fun hmem => ?_
  have hmap : ∀ ops : List (Op J), .defaultBegin job ∉ ops.map Entry.op := by simp
  cases op with
  | execute other =>
      rcases List.mem_append.mp hmem with hbegin | hlast
      · obtain rfl := Executor.eq_of_mem_begin hbegin
        exact hexecute rfl
      · simp at hlast
  | elementStarted other =>
      rcases List.mem_append.mp hmem with hbegin | hlast
      · split at hbegin
        · rename_i hzero
          obtain rfl := Executor.eq_of_mem_begin hbegin
          exact hstarted rfl hzero
        · cases hbegin
      · simp at hlast
  | _ => exact hmap _ hmem

omit [DecidableEq J] [DecidableEq P] [DecidableEq T] in
theorem Moves.phase {d : Data J P T σ} {before after : Place T}
    (h : Moves F d thread op job before after) (hexecute : op ≠ .execute job)
    (hrun : op ≠ .run job) (hfinish : op ≠ .elementFinished job job)
    (hend : op ≠ .defaultEnd job) :
    after.isStarted = before.isStarted ∧ after.isLate = before.isLate ∧
      after.isEnded = before.isEnded := by
  cases h with
  | started => exact absurd rfl hexecute
  | ending => exact absurd rfl hrun
  | closing => exact absurd rfl hfinish
  | ended | reporting => exact absurd rfl hend
  | _ => exact ⟨rfl, rfl, rfl⟩

omit [DecidableEq J] [DecidableEq P] [DecidableEq T] in
/-- The calls that `begin` of a job makes. -/
theorem mem_begin_added {entry : Entry J} (h : entry ∈ Executor.begin job (F.added job)) :
    entry = .defaultBegin job ∨
      ∃ collection, F.parent job = some collection ∧ entry = .op (.elementStarted collection) := by
  unfold Forest.added at h
  cases hparent : F.parent job with
  | none =>
      rw [hparent] at h
      exact .inl (List.mem_singleton.mp h)
  | some collection =>
      rw [hparent] at h
      change entry ∈ [.defaultBegin job, .op (.elementStarted collection), .defaultBegin job] at h
      simp only [List.mem_cons, List.not_mem_nil, or_false] at h
      rcases h with rfl | rfl | rfl
      · exact .inl rfl
      · exact .inr ⟨collection, rfl, rfl⟩
      · exact .inl rfl

/-! ## Jobs under execution -/

section Executing

variable {other : Thread T} {op' : Op J}

omit [DecidableEq P] [DecidableEq T] in
theorem place_of_mem (hs : x.state.Sound F) (hop : .op op ∈ x.stack thread)
    (hjobs : (job, .executing) ∈ op.jobs) : x.data.place job = .held .executing thread :=
  hs.place_eq (mem_state_stack.mpr hop) hjobs

omit [DecidableEq P] [DecidableEq T] in
theorem executing_unique (hs : x.state.Sound F) (hop : .op op ∈ x.stack thread)
    (hjobs : (job, .executing) ∈ op.jobs) (hop' : .op op' ∈ x.stack other)
    (hjobs' : (job, .executing) ∈ op'.jobs) : other = thread ∧ op' = op := by
  have hthread := (hs.jobs.thread_unique (mem_state_stack.mpr hop) hjobs
    (mem_state_stack.mpr hop') hjobs').1
  subst hthread
  exact ⟨rfl, hs.jobs.op_unique (mem_state_stack.mpr hop) hjobs (mem_state_stack.mpr hop') hjobs'⟩

omit [DecidableEq P] [DecidableEq T] in
theorem notMem_of_executing (hs : x.state.Sound F) (hstack : x.stack thread = .op op :: rest)
    (hjobs : (job, .executing) ∈ op.jobs) (hjobs' : (job, .executing) ∈ op'.jobs) :
    .op op' ∉ rest := by
  intro hmem
  have hstate : x.state.stack thread = [] ++ op :: rest.filterMap Entry.op? := by
    simp only [Execution.state, hstack]
    rfl
  refine (hs.jobs.notMem_of_append hstate hjobs hjobs').2 (List.mem_filterMap.mpr ?_)
  exact ⟨_, hmem, rfl⟩

omit [DecidableEq P] [DecidableEq T] in
theorem late_of_element (hs : x.state.Sound F) (hparent : F.parent job = some collection)
    (hop : .op (.setRunning job) ∈ x.stack thread) :
    (x.data.place collection).isLate = true := by
  have hplace := place_of_mem hs hop (List.mem_singleton.mpr rfl)
  refine hs.books.late collection (hs.books.opened_of_ne_fresh hparent ?_)
  simp [Execution.state, Data.books, hplace]

omit [DecidableEq P] [DecidableEq T] in
theorem Execution.Hooked.isStarted (hx : x.Hooked F) (hs : x.state.Sound F)
    (hop : .op (.elementStarted collection) ∈ x.stack thread) :
    F.kind collection ≠ .plain ∧ (x.data.place collection).isStarted = true := by
  obtain ⟨above, below, hsplit, hkind, hbelow⟩ := (hx.stacked thread).of_mem hop
  have hsub : ∀ entry ∈ below, entry ∈ x.stack thread := by
    intro entry hmem
    rw [hsplit]
    exact List.mem_append_right _ (List.mem_cons_of_mem _ hmem)
  refine ⟨hkind, ?_⟩
  rcases hbelow with hown | ⟨element, hparent, helement⟩
  · rw [place_of_mem hs (hsub _ hown) (List.mem_singleton.mpr rfl)]
    rfl
  · exact Place.isStarted_of_isLate (late_of_element hs hparent (hsub _ helement))

omit [DecidableEq P] [DecidableEq T] in
theorem Execution.Hooked.first (hx : x.Hooked F) (hs : x.state.Sound F)
    (hstack : x.stack thread = .op (.elementStarted collection) :: rest)
    (hzero : x.data.jobsStarted collection = 0) : .op (.setRunning collection) ∈ rest := by
  have hlies := hx.stacked thread
  rw [hstack] at hlies
  obtain ⟨⟨hkind, hbelow⟩, -⟩ := hlies
  rcases hbelow with hown | ⟨element, hparent, helement⟩
  · exact hown
  · have hmem : .op (.setRunning element) ∈ x.stack thread := by
      rw [hstack]
      exact List.mem_cons_of_mem _ helement
    exact absurd hzero (((hx.counted collection).late (late_of_element hs hparent hmem)).1 hkind)

omit [DecidableEq P] [DecidableEq T] in
/-- When a job is set running, all its calls of `begin` have been made. -/
theorem Execution.Hooked.begun (hx : x.Hooked F) (hs : x.state.Sound F)
    (hstack : x.stack thread = .op (.setRunning job) :: rest) : x.Begun F job [] := by
  have hnone : .op (.setRunning job) ∉ rest :=
    notMem_of_executing hs hstack (List.mem_singleton.mpr rfl) (List.mem_singleton.mpr rfl)
  have hlies := hx.stacked thread
  rw [hstack] at hlies
  have hop : .op (.setRunning job) ∈ x.stack thread := by
    rw [hstack]
    exact List.mem_cons_self
  have hnotLate : (x.data.place job).isLate = false := by
    rw [place_of_mem hs hop (List.mem_singleton.mpr rfl)]
    rfl
  rcases (hx.counted job).begins thread hop with
    ⟨-, -, -, hstarted, -⟩ | ⟨hstarted, n, hhooks, hcount⟩
  · -- the `elementStarted` would be called for an element
    rw [hstack, List.mem_cons] at hstarted
    obtain ⟨above, below, rfl, -, hbelow⟩ := hlies.2.of_mem (hstarted.resolve_left (by simp))
    exfalso
    rcases hbelow with hown | ⟨element, hparent, helement⟩
    · exact hnone (List.mem_append_right _ (List.mem_cons_of_mem _ hown))
    · have hin : .op (.setRunning element) ∈ x.stack thread := by
        rw [hstack]
        exact List.mem_cons_of_mem _ (List.mem_append_right _ (List.mem_cons_of_mem _ helement))
      exact absurd (late_of_element hs hparent hin) (by simp [hnotLate])
  · refine ⟨hstarted, ?_⟩
    have hrest : rest.count (.defaultBegin job) = 0 := by
      refine List.count_eq_zero.mpr fun hmem => ?_
      obtain ⟨above, below, rfl, hbelow⟩ := hlies.2.of_mem hmem
      exact hnone (List.mem_append_right _ (List.mem_cons_of_mem _ hbelow))
    rw [hstack, List.count_cons, hrest] at hcount
    simp only [beq_iff_eq, reduceCtorEq, if_false, Nat.add_zero] at hcount
    rw [hhooks, hcount, List.append_nil]

end Executing

/-! ## What a step keeps -/

omit [DecidableEq T] in
theorem calls_of_mem_entries {d : Data J P T σ} {op' : Op J}
    (h : .op op' ∈ entries F thread d op) : Calls F d op op' := by
  refine exec_calls F thread op d ?_
  rw [← ops_entries]
  exact List.mem_filterMap.mpr ⟨_, h, rfl⟩

omit [DecidableEq J] [DecidableEq P] in
theorem mem_update {stack : Thread T → List (Entry J)} {other : Thread T} {entry top : Entry J}
    {new : List (Entry J)} (hstack : stack thread = top :: rest)
    (hmem : entry ∈ Function.update stack thread (new ++ rest) other) :
    other = thread ∧ entry ∈ new ∨ entry ∈ stack other ∧ (other = thread → entry ∈ rest) := by
  by_cases hother : other = thread
  · subst hother
    rw [Function.update_self] at hmem
    rcases List.mem_append.mp hmem with hnew | hrest
    · exact .inl ⟨rfl, hnew⟩
    · exact .inr ⟨hstack ▸ List.mem_cons_of_mem _ hrest, fun _ => hrest⟩
  · rw [Function.update_of_ne hother] at hmem
    exact .inr ⟨hmem, fun heq => absurd heq hother⟩

omit [DecidableEq T] in
/-- An operation leaves the calls of `begin` on what makes them. -/
theorem Execution.Hooked.stacked_entries (hx : x.Hooked F) (hs : x.state.Sound F)
    (hstack : x.stack thread = .op op :: rest) :
    Stacked (Begins F) (entries F thread x.data op ++ rest) := by
  have hrest : Stacked (Begins F) rest := by
    have hstacked := hx.stacked thread
    rw [hstack] at hstacked
    exact hstacked.2
  -- `begin` of the executors that a job had before it was enqueued
  have hadded : ∀ (job : J) (below : List (Entry J)), .op (.setRunning job) ∈ below →
      Stacked (Begins F) below →
      Stacked (Begins F) (Executor.begin job (F.added job) ++ below) := by
    intro job below hmem hbelow
    refine Stacked.append (fun entry hentry above => ?_) hbelow
    rcases mem_begin_added hentry with rfl | ⟨collection, hparent, rfl⟩
    · exact List.mem_append_right _ hmem
    · exact ⟨Books.Lawful.kind_ne_plain hparent,
        .inr ⟨job, hparent, List.mem_append_right _ hmem⟩⟩
  by_cases hexecute : ∃ job, op = .execute job
  · obtain ⟨job, rfl⟩ := hexecute
    have hbelow : Stacked (Begins F) (.op (.setRunning job) :: rest) := ⟨trivial, hrest⟩
    simp only [entries, List.append_assoc]
    by_cases hkind : F.kind job = .plain
    · simp only [Forest.executors, if_pos hkind]
      exact hadded job _ List.mem_cons_self hbelow
    · simp only [Forest.executors, if_neg hkind]
      exact ⟨⟨hkind, .inl List.mem_cons_self⟩, hbelow⟩
  · by_cases hstarted : ∃ collection, op = .elementStarted collection
    · obtain ⟨collection, rfl⟩ := hstarted
      have hbelow : Stacked (Begins F) (.op (.unlock (.job collection)) :: rest) :=
        ⟨trivial, hrest⟩
      simp only [entries, List.append_assoc]
      split
      · rename_i hzero
        exact hadded collection _ (List.mem_cons_of_mem _ (hx.first hs hstack hzero)) hbelow
      · exact hbelow
    · refine Stacked.append (fun entry hentry above => ?_) hrest
      cases entry with
      | defaultBegin job =>
          refine absurd hentry (List.count_eq_zero.mp (count_entries F thread x.data op job ?_ ?_))
          · rintro rfl
            exact hexecute ⟨job, rfl⟩
          · rintro rfl
            exact absurd ⟨job, rfl⟩ hstarted
      | op later =>
          have hcalls := calls_of_mem_entries hentry
          cases later with
          | elementStarted collection =>
              cases hcalls with
              | beginElement | beginSelf => exact absurd ⟨_, rfl⟩ hexecute
              | callBegin => exact absurd ⟨_, rfl⟩ hstarted
          | _ => trivial

omit [DecidableEq P] [DecidableEq T] in
/-- A step that does nothing with a job keeps what is known about its calls. -/
theorem Execution.Counted.frame (h : x.Counted F job)
    (hphase : (next.data.place job).isStarted = (x.data.place job).isStarted ∧
      (next.data.place job).isLate = (x.data.place job).isLate ∧
      (next.data.place job).isEnded = (x.data.place job).isEnded)
    (hstarted : next.data.jobsStarted job = x.data.jobsStarted job)
    (hhooks : next.hooksOf job = x.hooksOf job)
    (hmem : ∀ op thread, (job, .executing) ∈ op.jobs → .op op ∈ next.stack thread →
      .op op ∈ x.stack thread)
    (hcall : ∀ thread, .op (.elementStarted job) ∈ x.stack thread →
      .op (.elementStarted job) ∈ next.stack thread)
    (hcount : ∀ thread, (next.stack thread).count (.defaultBegin job) =
      (x.stack thread).count (.defaultBegin job)) : next.Counted F job := by
  obtain ⟨hplace, hlate, hended⟩ := hphase
  refine ⟨?_, ?_, ?_, ?_, ?_⟩
  · rw [hplace, hstarted, hhooks]
    exact h.before
  · intro thread hop
    have hnone : .defaultBegin job ∉ x.stack thread → .defaultBegin job ∉ next.stack thread := by
      rw [← List.count_eq_zero, ← List.count_eq_zero, hcount]
      exact id
    rw [hstarted, hhooks, hcount]
    refine (h.begins thread (hmem _ _ (List.mem_singleton.mpr rfl) hop)).imp ?_ id
    rintro ⟨hkind, hzero, hno, hcalled, hnot⟩
    exact ⟨hkind, hzero, hno, hcall thread hcalled, hnone hnot⟩
  · intro thread hop
    rw [Begun, hstarted, hhooks]
    exact h.run thread (hmem _ _ (List.mem_singleton.mpr rfl) hop)
  · intro thread hop
    rw [Begun, hstarted, hhooks]
    exact h.finish thread (hmem _ _ (by simp [Op.jobs]) hop)
  · rw [hlate, Begun, hstarted, hhooks, hended]
    exact h.late

section Perform

variable {op' : Op J}

omit [DecidableEq J] [DecidableEq P] [DecidableEq T] in
/-- A job is executed by three operations one after the other. -/
theorem calls_executing [DecidableEq J] {d : Data J P T σ} (h : Calls F d op op')
    (hjobs : (job, .executing) ∈ op'.jobs) :
    op = .execute job ∧ op' = .setRunning job ∨ op = .setRunning job ∧ op' = .run job ∨
      op = .run job ∧ op' = .elementFinished job job := by
  have hop : op' = .setRunning job ∨ op' = .run job ∨
      ∃ collection, op' = .elementFinished collection job ∧ job = collection := by
    cases op' with
    | setRunning other => simp_all [Op.jobs]
    | run other => simp_all [Op.jobs]
    | elementFinished collection other =>
        simp only [Op.jobs, List.mem_singleton, Prod.mk.injEq] at hjobs
        obtain ⟨rfl, hstage⟩ := hjobs
        refine .inr (.inr ⟨collection, rfl, ?_⟩)
        by_contra hne
        rw [if_neg hne] at hstage
        cases hstage
    | processCompletedElement | restoreStatus | advance | countDown =>
        simp only [Op.jobs, List.mem_singleton, Prod.mk.injEq] at hjobs
        split at hjobs <;> exact absurd hjobs.2 (by simp)
    | _ => simp [Op.jobs] at hjobs
  rcases hop with rfl | rfl | ⟨collection, rfl, rfl⟩
  · cases h
    exact .inl ⟨rfl, rfl⟩
  · cases h
    exact .inr (.inl ⟨rfl, rfl⟩)
  · cases h with
    | finishSelf => exact .inr (.inr ⟨rfl, rfl⟩)
    | finishElement hparent => exact absurd (F.height_lt _ _ hparent) (lt_irrefl _)

omit [DecidableEq T] [DecidableEq P] [DecidableEq J] in
theorem hooksOf_append [DecidableEq J] {d : Data J P T σ} {stack : Thread T → List (Entry J)}
    (x : Execution J P T σ) (hooks : List (Hook J)) (job : J) :
    Execution.hooksOf ⟨d, stack, x.hooks ++ hooks⟩ job =
      x.hooksOf job ++ hooks.filter fun hook => hook.job = job :=
  List.filter_append _ _

/-- An operation that is none of those that execute the job does nothing with it. -/
theorem Execution.Hooked.perform_other (hx : x.Hooked F) (hs : x.state.Sound F)
    (hstack : x.stack thread = .op op :: rest)
    (hfree : ∀ mutex, wants F op = some mutex → x.data.holder mutex = none)
    (hexecute : op ≠ .execute job) (hstarted : op ≠ .elementStarted job)
    (hset : op ≠ .setRunning job) (hrun : op ≠ .run job)
    (hfinish : op ≠ .elementFinished job job) (hend : op ≠ .defaultEnd job) :
    (x.perform F thread op rest).Counted F job := by
  have hstate : x.state.stack thread = op :: rest.filterMap Entry.op? := by
    simp only [Execution.state, hstack]
    rfl
  refine (hx.counted job).frame ?_ ?_ ?_ ?_ ?_ ?_
  · rcases hs.exec_place hstate hfree job with hsame | hmoves
    · rw [show (x.perform F thread op rest).data.place job = x.data.place job from hsame]
      exact ⟨rfl, rfl, rfl⟩
    · exact hmoves.phase hexecute hrun hfinish hend
  · exact (exec_jobsStarted F thread op x.data job).resolve_right hstarted
  · rw [perform, hooksOf_append]
    have hnone : (op.hook?.toList.filter fun hook => hook.job = job) = [] := by
      cases op with
      | run other =>
          have hne : other ≠ job := fun heq => hrun (by rw [heq])
          simp [Op.hook?, Hook.job, hne]
      | defaultEnd other =>
          have hne : other ≠ job := fun heq => hend (by rw [heq])
          simp [Op.hook?, Hook.job, hne]
      | _ => rfl
    rw [hnone, List.append_nil]
  · intro op' other hjobs hmem
    rcases mem_update hstack hmem with ⟨-, hnew⟩ | ⟨hold, -⟩
    · rcases calls_executing (calls_of_mem_entries hnew) hjobs with
        ⟨rfl, -⟩ | ⟨rfl, -⟩ | ⟨rfl, -⟩
      · exact absurd rfl hexecute
      · exact absurd rfl hset
      · exact absurd rfl hrun
    · exact hold
  · intro other hmem
    by_cases hother : other = thread
    · subst hother
      rw [hstack, List.mem_cons] at hmem
      have hrest := hmem.resolve_left fun heq => hstarted (Entry.op.inj heq).symm
      simp only [perform, Function.update_self]
      exact List.mem_append_right _ hrest
    · simp only [perform, Function.update_of_ne hother]
      exact hmem
  · intro other
    by_cases hother : other = thread
    · subst hother
      simp only [perform, Function.update_self, hstack]
      rw [List.count_append,
        count_entries F other x.data op job hexecute fun heq => absurd heq hstarted]
      simp
    · simp only [perform, Function.update_of_ne hother]

/-- `execute` of a job makes the calls of `begin`. -/
theorem Execution.Hooked.perform_execute (hx : x.Hooked F) (hs : x.state.Sound F)
    (hstack : x.stack thread = .op (.execute job) :: rest) :
    (x.perform F thread (.execute job) rest).Counted F job := by
  have hop : .op (.execute job) ∈ x.stack thread := by
    rw [hstack]
    exact List.mem_cons_self
  have hplace : x.data.place job = .held .assigned thread :=
    hs.place_eq (mem_state_stack.mpr hop) (List.mem_singleton.mpr rfl)
  have hnot : ∀ op' other, (job, .executing) ∈ op'.jobs → .op op' ∉ x.stack other := by
    intro op' other hjobs hmem
    have hexecuting := place_of_mem hs hmem hjobs
    rw [hplace] at hexecuting
    cases hexecuting
  obtain ⟨hzero, hnone⟩ := (hx.counted job).before (by rw [hplace]; rfl)
  have hafter : (x.perform F thread (.execute job) rest).data.place job =
      .held .executing thread := by
    simp only [perform, exec]
    split <;> exact Function.update_self _ _ _
  have hhooks : (x.perform F thread (.execute job) rest).hooksOf job = [] := by
    rw [perform, hooksOf_append, hnone]
    rfl
  have hstarted : (x.perform F thread (.execute job) rest).data.jobsStarted job = 0 := by
    rw [← hzero]
    exact (exec_jobsStarted F thread (.execute job) x.data job).resolve_right (by simp)
  refine ⟨?_, ?_, ?_, ?_, ?_⟩
  · intro hno
    rw [hafter] at hno
    cases hno
  · intro other hmem
    rcases mem_update hstack hmem with ⟨rfl, -⟩ | ⟨hold, -⟩
    · have hcount : rest.count (.defaultBegin job) = 0 := by
        refine List.count_eq_zero.mpr fun hin => ?_
        have hbegins := hx.stacked other
        rw [hstack] at hbegins
        obtain ⟨above, below, rfl, hbelow⟩ := hbegins.2.of_mem hin
        refine hnot (.setRunning job) other (List.mem_singleton.mpr rfl) ?_
        rw [hstack]
        exact List.mem_cons_of_mem _ (List.mem_append_right _ (List.mem_cons_of_mem _ hbelow))
      rw [hstarted, hhooks]
      simp only [perform, Function.update_self, entries]
      by_cases hkind : F.kind job = .plain
      · refine .inr ⟨fun hne => absurd hkind hne, 0, rfl, ?_⟩
        simp only [Forest.executors, if_pos hkind, List.count_append, hcount]
        rw [Forest.added, Executor.count_begin_added]
        simp [Forest.begins]
      · refine .inl ⟨hkind, trivial, trivial, ?_, ?_⟩
        · simp [Forest.executors, hkind, Executor.aboutToBeQueued, Executor.begin]
        · simp [Forest.executors, hkind, Executor.aboutToBeQueued, Executor.begin,
            List.count_eq_zero.mp hcount]
    · exact absurd hold (hnot _ _ (List.mem_singleton.mpr rfl))
  · intro other hmem
    rcases mem_update hstack hmem with ⟨-, hnew⟩ | ⟨hold, -⟩
    · cases calls_of_mem_entries hnew
    · exact absurd hold (hnot _ _ (List.mem_singleton.mpr rfl))
  · intro other hmem
    rcases mem_update hstack hmem with ⟨-, hnew⟩ | ⟨hold, -⟩
    · cases calls_of_mem_entries hnew
    · exact absurd hold (hnot _ _ (by simp [Op.jobs]))
  · intro hlate
    rw [hafter] at hlate
    cases hlate

/-- The first `elementStarted` of a collection makes its calls of `begin`. -/
theorem Execution.Hooked.perform_elementStarted (hx : x.Hooked F) (hs : x.state.Sound F)
    (hstack : x.stack thread = .op (.elementStarted job) :: rest) :
    (x.perform F thread (.elementStarted job) rest).Counted F job := by
  have hop : .op (.elementStarted job) ∈ x.stack thread := by
    rw [hstack]
    exact List.mem_cons_self
  obtain ⟨hkind, hplace⟩ := hx.isStarted hs hop
  have hhooks : (x.perform F thread (.elementStarted job) rest).hooksOf job = x.hooksOf job := by
    rw [perform, hooksOf_append]
    exact List.append_nil _
  have hstarted : (x.perform F thread (.elementStarted job) rest).data.jobsStarted job ≠ 0 := by
    simp [perform, exec]
  have hbegun : ∀ hooks, x.Begun F job hooks →
      (x.perform F thread (.elementStarted job) rest).Begun F job hooks :=
    fun hooks h => ⟨fun _ => hstarted, hhooks.trans h.2⟩
  have hmem : ∀ op' other, (job, .executing) ∈ op'.jobs →
      .op op' ∈ (x.perform F thread (.elementStarted job) rest).stack other →
      .op op' ∈ x.stack other := by
    intro op' other hjobs hin
    rcases mem_update hstack hin with ⟨-, hnew⟩ | ⟨hold, -⟩
    · rcases calls_executing (calls_of_mem_entries hnew) hjobs with
        ⟨heq, -⟩ | ⟨heq, -⟩ | ⟨heq, -⟩ <;> cases heq
    · exact hold
  refine ⟨?_, ?_, ?_, ?_, ?_⟩
  · intro hno
    exact absurd (hplace.symm.trans hno) (by simp)
  · intro other hin
    have hold := hmem _ _ (List.mem_singleton.mpr rfl) hin
    refine .inr ⟨fun _ => hstarted, ?_⟩
    rw [hhooks]
    rcases (hx.counted job).begins other hold with
      ⟨-, hzero, hnone, -, hnot⟩ | ⟨hpos, n, hcalled, hcount⟩
    · -- the calls are made by the thread that executes the collection
      have hown : .op (.setRunning job) ∈ x.stack thread := by
        rw [hstack]
        exact List.mem_cons_of_mem _ (hx.first hs hstack hzero)
      obtain ⟨rfl, -⟩ := executing_unique hs hown (List.mem_singleton.mpr rfl) hold
        (List.mem_singleton.mpr rfl)
      have hrest : rest.count (.defaultBegin job) = 0 := by
        refine List.count_eq_zero.mpr fun hin => hnot ?_
        rw [hstack]
        exact List.mem_cons_of_mem _ hin
      refine ⟨0, hnone, ?_⟩
      simp only [perform, Function.update_self, entries, if_pos hzero, List.count_append, hrest]
      rw [Forest.added, Executor.count_begin_added]
      simp [Forest.begins]
    · refine ⟨n, hcalled, ?_⟩
      by_cases hother : other = thread
      · subst hother
        rw [← hcount]
        simp only [perform, Function.update_self, hstack]
        rw [List.count_append,
          count_entries F other x.data (.elementStarted job) job (by simp) fun _ => hpos hkind]
        simp
      · simpa only [perform, Function.update_of_ne hother] using hcount
  · intro other hin
    exact hbegun _ ((hx.counted job).run other (hmem _ _ (List.mem_singleton.mpr rfl) hin))
  · intro other hin
    exact hbegun _ ((hx.counted job).finish other (hmem _ _ (by simp [Op.jobs]) hin))
  · intro hlate
    exact hbegun _ ((hx.counted job).late hlate)

theorem calls_of_executing (hs : x.state.Sound F) (hstack : x.stack thread = .op op :: rest)
    (hjobs : (job, .executing) ∈ op.jobs) (hjobs' : (job, .executing) ∈ op'.jobs)
    {other : Thread T} (hmem : .op op' ∈ (x.perform F thread op rest).stack other) :
    Calls F x.data op op' := by
  rcases mem_update hstack hmem with ⟨-, hnew⟩ | ⟨hold, hrest⟩
  · exact calls_of_mem_entries hnew
  · have hop : .op op ∈ x.stack thread := by
      rw [hstack]
      exact List.mem_cons_self
    obtain ⟨rfl, rfl⟩ := executing_unique hs hop hjobs hold hjobs'
    exact absurd (hrest rfl) (notMem_of_executing hs hstack hjobs hjobs)

theorem Execution.Hooked.perform_setRunning (hx : x.Hooked F) (hs : x.state.Sound F)
    (hstack : x.stack thread = .op (.setRunning job) :: rest) :
    (x.perform F thread (.setRunning job) rest).Counted F job := by
  have hjobs : (job, .executing) ∈ (Op.setRunning job).jobs := List.mem_singleton.mpr rfl
  have hop : .op (.setRunning job) ∈ x.stack thread := by
    rw [hstack]
    exact List.mem_cons_self
  have hplace : (x.perform F thread (.setRunning job) rest).data.place job =
      .held .executing thread := (place_of_mem hs hop hjobs :)
  refine ⟨?_, ?_, ?_, ?_, ?_⟩
  · intro hno
    rw [hplace] at hno
    cases hno
  · intro other hmem
    cases calls_of_executing hs hstack hjobs hjobs hmem
  · intro other _
    obtain ⟨hstarted, hhooks⟩ := hx.begun hs hstack
    refine ⟨hstarted, ?_⟩
    rw [perform, hooksOf_append, hhooks]
    exact List.append_nil _
  · intro other hmem
    cases calls_of_executing hs hstack hjobs (by simp [Op.jobs]) hmem
  · intro hlate
    rw [hplace] at hlate
    cases hlate

omit [DecidableEq P] [DecidableEq T] in
/-- What has to be known of a job that has been run. -/
theorem Execution.Counted.of_begun (hplace : (x.data.place job).isStarted = true)
    (hbegun : x.Begun F job
      (.run job :: if (x.data.place job).isEnded then [.defaultEnd job] else []))
    (hnone : ∀ op thread, (job, .executing) ∈ op.jobs → .op op ∈ x.stack thread →
      op = .elementFinished job job ∧ (x.data.place job).isEnded = false) :
    x.Counted F job := by
  refine ⟨?_, ?_, ?_, ?_, ?_⟩
  · intro hno
    exact absurd (hplace.symm.trans hno) (by simp)
  · intro thread hmem
    cases (hnone _ thread (List.mem_singleton.mpr rfl) hmem).1
  · intro thread hmem
    cases (hnone _ thread (List.mem_singleton.mpr rfl) hmem).1
  · intro thread hmem
    rw [(hnone _ thread (by simp [Op.jobs]) hmem).2] at hbegun
    exact hbegun
  · intro _
    exact hbegun

theorem Execution.Hooked.perform_run (hx : x.Hooked F) (hs : x.state.Sound F)
    (hstack : x.stack thread = .op (.run job) :: rest) :
    (x.perform F thread (.run job) rest).Counted F job := by
  have hop : .op (.run job) ∈ x.stack thread := by
    rw [hstack]
    exact List.mem_cons_self
  have hjobs : (job, .executing) ∈ (Op.run job).jobs := List.mem_singleton.mpr rfl
  have hplace := place_of_mem hs hop hjobs
  have hafter : (x.perform F thread (.run job) rest).data.place job = .held .executing thread ∨
      (x.perform F thread (.run job) rest).data.place job = .held .ending thread := by
    simp only [perform, exec]
    split
    · exact .inr (Function.update_self _ _ _)
    · exact .inl hplace
  have hended : ((x.perform F thread (.run job) rest).data.place job).isEnded = false := by
    rcases hafter with hafter | hafter <;> rw [hafter] <;> rfl
  refine .of_begun ?_ ?_ ?_
  · rcases hafter with hafter | hafter <;> rw [hafter] <;> rfl
  · obtain ⟨hstarted, hhooks⟩ := (hx.counted job).run thread hop
    rw [hended]
    refine ⟨fun hkind => ?_, ?_⟩
    · refine ne_of_eq_of_ne ?_ (hstarted hkind)
      exact (exec_jobsStarted F thread (.run job) x.data job).resolve_right (by simp)
    · rw [perform, hooksOf_append, hhooks]
      simp [Op.hook?, Hook.job]
  · intro op' other hjobs' hmem
    rcases calls_executing (calls_of_executing hs hstack hjobs hjobs' hmem) hjobs' with
      ⟨heq, -⟩ | ⟨heq, -⟩ | ⟨-, rfl⟩
    · cases heq
    · cases heq
    · exact ⟨rfl, hended⟩

theorem Execution.Hooked.perform_elementFinished (hx : x.Hooked F) (hs : x.state.Sound F)
    (hstack : x.stack thread = .op (.elementFinished job job) :: rest)
    (hfree : ∀ mutex, wants F (.elementFinished job job) = some mutex →
      x.data.holder mutex = none) :
    (x.perform F thread (.elementFinished job job) rest).Counted F job := by
  have hop : .op (.elementFinished job job) ∈ x.stack thread := by
    rw [hstack]
    exact List.mem_cons_self
  have hjobs : (job, .executing) ∈ (Op.elementFinished job job).jobs := by simp [Op.jobs]
  have hplace := place_of_mem hs hop hjobs
  have hstate : x.state.stack thread =
      .elementFinished job job :: rest.filterMap Entry.op? := by
    simp only [Execution.state, hstack]
    rfl
  have hafter : (x.perform F thread (.elementFinished job job) rest).data.place job =
        .held .executing thread ∨
      (x.perform F thread (.elementFinished job job) rest).data.place job =
        .held .closing thread := by
    rcases hs.exec_place hstate hfree job with hsame | hmoves
    · exact .inl (hsame.trans hplace)
    · rw [show x.state.data.place job = .held .executing thread from hplace] at hmoves
      generalize hlast : (exec F thread (.elementFinished job job) x.state.data).1.place job =
        last at hmoves
      cases hmoves with
      | closing => exact .inr hlast
  have hended :
      ((x.perform F thread (.elementFinished job job) rest).data.place job).isEnded = false := by
    rcases hafter with hafter | hafter <;> rw [hafter] <;> rfl
  refine .of_begun ?_ ?_ ?_
  · rcases hafter with hafter | hafter <;> rw [hafter] <;> rfl
  · obtain ⟨hstarted, hhooks⟩ := (hx.counted job).finish thread hop
    rw [hended]
    refine ⟨fun hkind => ?_, ?_⟩
    · refine ne_of_eq_of_ne ?_ (hstarted hkind)
      exact (exec_jobsStarted F thread (.elementFinished job job) x.data job).resolve_right (by simp)
    · rw [perform, hooksOf_append, hhooks]
      exact List.append_nil _
  · intro op' other hjobs' hmem
    rcases calls_executing (calls_of_executing hs hstack hjobs hjobs' hmem) hjobs' with
      ⟨heq, -⟩ | ⟨heq, -⟩ | ⟨heq, -⟩ <;> cases heq

theorem Execution.Hooked.perform_defaultEnd (hx : x.Hooked F) (hs : x.state.Sound F)
    (hstack : x.stack thread = .op (.defaultEnd job) :: rest) :
    (x.perform F thread (.defaultEnd job) rest).Counted F job := by
  have hop : .op (.defaultEnd job) ∈ x.stack thread := by
    rw [hstack]
    exact List.mem_cons_self
  have hplace : x.data.place job = .held .ending thread :=
    hs.place_eq (mem_state_stack.mpr hop) (List.mem_singleton.mpr rfl)
  have hafter : (x.perform F thread (.defaultEnd job) rest).data.place job = .reported ∨
      (x.perform F thread (.defaultEnd job) rest).data.place job = .held .reporting thread := by
    simp only [perform, exec]
    cases F.parent job with
    | none => exact .inl (Function.update_self _ _ _)
    | some collection => exact .inr (Function.update_self _ _ _)
  have hended : ((x.perform F thread (.defaultEnd job) rest).data.place job).isEnded = true := by
    rcases hafter with hafter | hafter <;> rw [hafter] <;> rfl
  refine .of_begun ?_ ?_ ?_
  · rcases hafter with hafter | hafter <;> rw [hafter] <;> rfl
  · obtain ⟨hstarted, hhooks⟩ := (hx.counted job).late (by rw [hplace]; rfl)
    rw [hended]
    refine ⟨fun hkind => ?_, ?_⟩
    · refine ne_of_eq_of_ne ?_ (hstarted hkind)
      exact (exec_jobsStarted F thread (.defaultEnd job) x.data job).resolve_right (by simp)
    · rw [perform, hooksOf_append, hhooks, hplace]
      simp [Op.hook?, Hook.job, Place.isEnded]
  · intro op' other hjobs' hmem
    rcases mem_update hstack hmem with ⟨-, hnew⟩ | ⟨hold, -⟩
    · rcases calls_executing (calls_of_mem_entries hnew) hjobs' with
        ⟨heq, -⟩ | ⟨heq, -⟩ | ⟨heq, -⟩ <;> cases heq
    · have hexecuting := place_of_mem hs hold hjobs'
      rw [hplace] at hexecuting
      cases hexecuting

end Perform

namespace Execution.Hooked

omit [DecidableEq P] in
/-- A call of `defaultBegin` is one of the calls that are due. -/
theorem callDefaultBegin {begun : J} (hx : x.Hooked F) (hs : x.state.Sound F)
    (hstack : x.stack thread = .defaultBegin begun :: rest) (job : J) :
    (x.callDefaultBegin thread begun rest).Counted F job := by
  have hrest : ∀ entry other, entry ∈ (x.callDefaultBegin thread begun rest).stack other →
      entry ∈ x.stack other := by
    intro entry other hmem
    by_cases hother : other = thread
    · subst hother
      simp only [Execution.callDefaultBegin, Function.update_self] at hmem
      rw [hstack]
      exact List.mem_cons_of_mem _ hmem
    · simpa only [Execution.callDefaultBegin, Function.update_of_ne hother] using hmem
  by_cases heq : job = begun
  · subst heq
    have hbegins := hx.stacked thread
    rw [hstack] at hbegins
    have hop : .op (.setRunning job) ∈ x.stack thread := by
      rw [hstack]
      exact List.mem_cons_of_mem _ hbegins.1
    have hjobs : (job, .executing) ∈ (Op.setRunning job).jobs := List.mem_singleton.mpr rfl
    have hplace := place_of_mem hs hop hjobs
    have hhooks : (x.callDefaultBegin thread job rest).hooksOf job =
        x.hooksOf job ++ [.defaultBegin job] := by
      rw [Execution.callDefaultBegin, hooksOf_append]
      simp [Hook.job]
    refine ⟨?_, ?_, ?_, ?_, ?_⟩
    · intro hno
      exact absurd (hno.symm.trans (congrArg Place.isStarted hplace)) (by simp [Place.isStarted])
    · intro other hmem
      obtain ⟨rfl, -⟩ := executing_unique hs hop hjobs (hrest _ other hmem) hjobs
      rcases (hx.counted job).begins other hop with
        ⟨-, -, -, -, hnot⟩ | ⟨hstarted, n, hcalled, hcount⟩
      · rw [hstack] at hnot
        exact absurd List.mem_cons_self hnot
      · refine .inr ⟨hstarted, n + 1, ?_, ?_⟩
        · rw [hhooks, hcalled, List.replicate_succ']
        · rw [hstack, List.count_cons_self] at hcount
          simp only [Execution.callDefaultBegin, Function.update_self]
          omega
    · intro other hmem
      cases (executing_unique hs hop hjobs (hrest _ other hmem) (List.mem_singleton.mpr rfl)).2
    · intro other hmem
      cases (executing_unique hs hop hjobs (hrest _ other hmem) (by simp [Op.jobs])).2
    · intro hlate
      exact absurd (hlate.symm.trans (congrArg Place.isLate hplace)) (by simp [Place.isLate])
  · refine (hx.counted job).frame ⟨rfl, rfl, rfl⟩ rfl ?_ (fun op other _ => hrest _ other) ?_ ?_
    · rw [Execution.callDefaultBegin, hooksOf_append]
      simp [Hook.job, Ne.symm heq]
    · intro other hmem
      by_cases hother : other = thread
      · subst hother
        rw [hstack] at hmem
        simp only [Execution.callDefaultBegin, Function.update_self]
        simpa using hmem
      · simpa only [Execution.callDefaultBegin, Function.update_of_ne hother] using hmem
    · intro other
      by_cases hother : other = thread
      · subst hother
        simp only [Execution.callDefaultBegin, Function.update_self, hstack]
        rw [List.count_cons_of_ne]
        simpa using Ne.symm heq
      · simp only [Execution.callDefaultBegin, Function.update_of_ne hother]

/-- The next operation of a thread does with a job what is due. -/
theorem perform (hx : x.Hooked F) (hs : x.state.Sound F)
    (hstack : x.stack thread = .op op :: rest)
    (hfree : ∀ mutex, wants F op = some mutex → x.data.holder mutex = none) (job : J) :
    (x.perform F thread op rest).Counted F job := by
  by_cases hexecute : op = .execute job
  · subst hexecute
    exact hx.perform_execute hs hstack
  by_cases hstarted : op = .elementStarted job
  · subst hstarted
    exact hx.perform_elementStarted hs hstack
  by_cases hset : op = .setRunning job
  · subst hset
    exact hx.perform_setRunning hs hstack
  by_cases hrun : op = .run job
  · subst hrun
    exact hx.perform_run hs hstack
  by_cases hfinish : op = .elementFinished job job
  · subst hfinish
    exact hx.perform_elementFinished hs hstack hfree
  by_cases hend : op = .defaultEnd job
  · subst hend
    exact hx.perform_defaultEnd hs hstack
  exact hx.perform_other hs hstack hfree hexecute hstarted hset hrun hfinish hend

theorem runThread (hx : x.Hooked F) (hs : x.state.Sound F)
    (h : x.runThread F thread = some next) : next.Hooked F := by
  have hstacked : ∀ stack, Stacked (Begins F) stack → ∀ other,
      Stacked (Begins F) (Function.update x.stack thread stack other) := by
    intro stack hstack other
    by_cases hother : other = thread
    · rw [hother, Function.update_self]
      exact hstack
    · rw [Function.update_of_ne hother]
      exact hx.stacked other
  rcases runThread_eq_some h with ⟨job, rest, hstack, rfl⟩ | ⟨op, rest, hstack, hfree, rfl⟩
  · refine ⟨hstacked rest ?_, hx.callDefaultBegin hs hstack⟩
    have hbegins := hx.stacked thread
    rw [hstack] at hbegins
    exact hbegins.2
  · exact ⟨hstacked _ (hx.stacked_entries hs hstack), hx.perform hs hstack hfree⟩

end Execution.Hooked

/-- The beginning of a call does nothing with the jobs that are being executed. -/
theorem step_call {s mid : State J P T σ} {act : Act J T} (h : step F s act = some mid)
    (hact : ∀ thread, act ≠ .run thread) :
    s.stack act.thread = [] ∧ mid.stack act.thread = act.ops ∧
      mid.data.jobsStarted = s.data.jobsStarted ∧
      ∀ job, (mid.data.place job).isStarted = (s.data.place job).isStarted ∧
        (mid.data.place job).isLate = (s.data.place job).isLate ∧
        (mid.data.place job).isEnded = (s.data.place job).isEnded := by
  have hcall : ∀ {before : State J P T σ} {caller ops}, before.beginCall caller ops = some mid →
      before.stack (.caller caller) = [] ∧ mid.stack (.caller caller) = ops ∧
        mid.data = before.data := by
    intro before caller ops hbegin
    obtain ⟨hidle, rfl⟩ := State.beginCall_eq_some hbegin
    exact ⟨hidle, Function.update_self _ _ _, rfl⟩
  cases act with
  | run thread => exact absurd rfl (hact thread)
  | enqueue caller jobs =>
      simp only [step] at h
      split at h
      · rename_i hguard
        obtain ⟨hidle, hops, hdata⟩ := hcall h
        refine ⟨hidle, hops, by rw [hdata]; rfl, fun job => ?_⟩
        rw [hdata]
        by_cases hmem : job ∈ jobs
        · simp [State.takeUp, hmem, (hguard.2 job hmem).2, Place.isStarted, Place.isLate,
            Place.isEnded]
        · simp [State.takeUp, hmem]
      · cases h
  | stop caller collection =>
      simp only [step] at h
      split at h
      · cases h
      · obtain ⟨hidle, hops, hdata⟩ := hcall h
        exact ⟨hidle, hops, by rw [hdata], fun job => by rw [hdata]; exact ⟨rfl, rfl, rfl⟩⟩
  | requestAbort caller job =>
      obtain ⟨hidle, hops, hdata⟩ := hcall h
      exact ⟨hidle, hops, by rw [hdata], fun job => by rw [hdata]; exact ⟨rfl, rfl, rfl⟩⟩
  | finish caller =>
      obtain ⟨hidle, hops, hdata⟩ := hcall h
      exact ⟨hidle, hops, by rw [hdata], fun job => by rw [hdata]; exact ⟨rfl, rfl, rfl⟩⟩

/-- **Every step makes the calls that are due, and no others.** -/
theorem Execution.Hooked.step {act : Act J T} (hx : x.Hooked F) (hs : x.state.Sound F)
    (h : x.step F act = some next) : next.Hooked F := by
  rcases step_eq_some h with ⟨thread, rfl, hrun⟩ | ⟨hcall, hidle, mid, hmid, rfl⟩
  · exact hx.runThread hs hrun
  · obtain ⟨-, hops, hstarted, hphase⟩ := step_call hmid hcall
    rw [hops]
    have hcalls : ∀ op ∈ act.ops, (∀ job, (job, .executing) ∉ op.jobs) ∧
        ∀ job, op ≠ .elementStarted job := by
      cases act <;> simp [Act.ops, Op.jobs]
    refine ⟨fun other => ?_, fun job => (hx.counted job).frame (hphase job)
      (congrFun hstarted job) rfl ?_ ?_ ?_⟩
    · dsimp only
      by_cases hother : other = act.thread
      · rw [hother, Function.update_self, ← List.append_nil (act.ops.map Entry.op)]
        refine Stacked.map_append (fun op hop above => ?_) trivial
        cases op with
        | elementStarted job => exact absurd rfl ((hcalls _ hop).2 job)
        | _ => trivial
      · rw [Function.update_of_ne hother]
        exact hx.stacked other
    · intro op other hjobs hmem
      dsimp only at hmem
      by_cases hother : other = act.thread
      · rw [hother, Function.update_self] at hmem
        exact absurd hjobs ((hcalls op (by simpa using hmem)).1 job)
      · rwa [Function.update_of_ne hother] at hmem
    · intro other hmem
      have hother : other ≠ act.thread := by
        rintro rfl
        rw [hidle] at hmem
        cases hmem
      dsimp only
      rwa [Function.update_of_ne hother]
    · intro other
      dsimp only
      by_cases hother : other = act.thread
      · rw [hother, Function.update_self, hidle, List.count_nil]
        exact List.count_eq_zero.mpr (by simp)
      · rw [Function.update_of_ne hother]

/-- **In every execution the calls are made that are due, and no others.** -/
theorem executions_hooked {ok : State J P T σ → Act J T → Prop} {start : Weaver.Start J P σ}
    (run : Executions F ok start x) : x.Hooked F := by
  induction run with
  | refl =>
      refine ⟨fun thread => ?_, fun job => ⟨fun _ => ⟨rfl, rfl⟩, ?_, ?_, ?_, nofun⟩⟩
      · cases thread
        · exact ⟨trivial, trivial⟩
        · trivial
      all_goals
        intro thread hmem
        cases thread <;> simp [Execution.init, init] at hmem
  | tail run _ hstep ih => exact ih.step (runs_sound (executions_runs run)) hstep

/-! ## Runs and executions -/

/-- A thread comes to its next operation after some calls of `defaultBegin`. -/
theorem exists_callDefaultBegin {ok : State J P T σ → Act J T → Prop} {ops : List (Op J)}
    (hok : ok x.state (.run thread)) (hstack : x.state.stack thread = op :: ops) :
    ∃ ready rest, Library.RunWhere (Execution.step F) (fun x act => ok x.state act) x ready ∧
      ready.state = x.state ∧ ready.stack thread = .op op :: rest ∧
      rest.filterMap Entry.op? = ops := by
  generalize hentries : x.stack thread = stack
  induction stack generalizing x with
  | nil =>
      rw [show x.state.stack thread = (x.stack thread).filterMap Entry.op? from rfl,
        hentries] at hstack
      cases hstack
  | cons entry rest ih =>
      cases entry with
      | op top =>
          rw [show x.state.stack thread = (x.stack thread).filterMap Entry.op? from rfl,
            hentries] at hstack
          cases hstack
          exact ⟨x, rest, .refl, rfl, hentries, rfl⟩
      | defaultBegin job =>
          have hsame := Execution.callDefaultBegin_state hentries
          have hstep : x.step F (.run thread) = some (x.callDefaultBegin thread job rest) := by
            simp only [Execution.step, Execution.runThread, hentries]
          have hfirst : Library.RunWhere (Execution.step F) (fun x act => ok x.state act) x
              (x.callDefaultBegin thread job rest) := .single hok hstep
          have hok' : ok (x.callDefaultBegin thread job rest).state (.run thread) := by
            rwa [hsame]
          have hstack' : (x.callDefaultBegin thread job rest).state.stack thread = op :: ops := by
            rwa [hsame]
          have hrest : (x.callDefaultBegin thread job rest).stack thread = rest :=
            Function.update_self _ _ _
          obtain ⟨ready, below, hrun, hstate, hready, hops⟩ := ih hok' hstack' hrest
          exact ⟨ready, below, hfirst.trans hrun, hstate.trans hsame, hready, hops⟩

omit [DecidableEq P] [DecidableEq T] in
theorem Execution.Hooked.idle (hx : x.Hooked F) (h : x.state.stack thread = []) :
    x.stack thread = [] := by
  have hnone : ∀ op, .op op ∉ x.stack thread := by
    intro op hmem
    rw [← mem_state_stack, h] at hmem
    cases hmem
  have hbegins := hx.stacked thread
  cases hstack : x.stack thread with
  | nil => rfl
  | cons entry rest =>
      rw [hstack] at hbegins hnone
      cases entry with
      | op op => exact absurd List.mem_cons_self (hnone op)
      | defaultBegin job => exact absurd (List.mem_cons_of_mem _ hbegins.1) (hnone _)

/-- **Every run is the run of an execution.** -/
theorem exists_execution {ok : State J P T σ → Act J T → Prop} {start : Weaver.Start J P σ}
    {s : State J P T σ} (run : Runs F ok start s) :
    ∃ x : Execution J P T σ, Executions F ok start x ∧ x.state = s := by
  induction run with
  | refl =>
      refine ⟨Execution.init start, .refl, ?_⟩
      simp only [Execution.state, Execution.init, ops_map]
  | @tail s last act run hok hstep ih =>
      obtain ⟨x, hx, rfl⟩ := ih
      by_cases hact : ∃ thread, act = .run thread
      · obtain ⟨thread, rfl⟩ := hact
        obtain ⟨op, ops, hstack, hfree, rfl⟩ := State.runThread_eq_some hstep
        obtain ⟨ready, rest, hrun, hstate, hready, rfl⟩ := exists_callDefaultBegin hok hstack
        have hdata : ready.data = x.data := congrArg State.data hstate
        refine ⟨ready.perform F thread op rest, (hx.trans hrun).tail (hstate ▸ hok) ?_, ?_⟩
        · simp only [Execution.step, Execution.runThread, hready]
          refine if_pos ?_
          cases hwants : wants F op with
          | none => rfl
          | some mutex => exact decide_eq_true (hdata ▸ hfree mutex hwants)
        · rw [Execution.perform_state, hstate, hdata]
          rfl
      · have hcall : ∀ thread, act ≠ .run thread := fun thread heq => hact ⟨thread, heq⟩
        have hidle : x.stack act.thread = [] :=
          (executions_hooked hx).idle (step_call hstep hcall).1
        have hnext : x.step F act = some ⟨last.data, Function.update x.stack act.thread
            ((last.stack act.thread).map .op), x.hooks⟩ := by
          cases act with
          | run thread => exact absurd rfl (hcall thread)
          | enqueue | stop | requestAbort | finish =>
              simp only [Execution.step, hstep]
              exact if_pos hidle
        refine ⟨_, hx.tail hok hnext, ?_⟩
        exact Execution.state_of_call hstep

/-! ## One begin, one run, one end -/

omit [DecidableEq P] [DecidableEq T] in
/-- The innermost `begin` of the job, its `run` and its innermost `end` have been called once
each, in this order. -/
def Execution.OnceEach (x : Execution J P T σ) (job : J) : Prop :=
  x.hooksOf job = [.defaultBegin job, .run job, .defaultEnd job]

instance (x : Execution J P T σ) (job : J) : Decidable (x.OnceEach job) :=
  inferInstanceAs (Decidable (_ = _))

theorem hooksOf_ended {ok : State J P T σ → Act J T → Prop} {start : Weaver.Start J P σ}
    (run : Executions F ok start x) {status : Status} (hended : .ended job status ∈ x.data.log) :
    x.hooksOf job =
      List.replicate (F.begins job) (.defaultBegin job) ++ [.run job, .defaultEnd job] := by
  have hplace : (x.data.place job).isEnded = true :=
    (runs_recorded (executions_runs run)).isEnded_iff.mpr ⟨status, hended⟩
  have hlate : (x.data.place job).isLate = true := by
    generalize x.data.place job = place at hplace ⊢
    cases place with
    | held stage thread => cases stage <;> first | rfl | cases hplace
    | reported => rfl
    | _ => cases hplace
  have hhooks := (((executions_hooked run).counted job).late hlate).2
  rwa [hplace] at hhooks

/-- **One begin, one run, one end.**  Whoever stops or aborts collections, the jobs that are
executed once through are begun once exactly if they are elements of no collection. -/
theorem begin_run_end_iff {ok : State J P T σ → Act J T → Prop} {start : Weaver.Start J P σ}
    (run : Executions F ok start x) {status : Status} (hended : .ended job status ∈ x.data.log) :
    x.OnceEach job ↔ F.parent job = none := by
  rw [Execution.OnceEach, hooksOf_ended run hended]
  unfold Forest.begins
  cases F.parent job with
  | none => simp
  | some collection => simp [List.replicate_succ]

variable (F) in
/-- The execution of a list of actions. -/
theorem exists_executions (ok : State J P T σ → Act J T → Prop)
    [∀ state act, Decidable (ok state act)] (start : Weaver.Start J P σ)
    (goal : Execution J P T σ → Prop) [DecidablePred goal] (actions : List (Act J T))
    (h : (Library.execute (Execution.step F) (fun x act => ok x.state act)
      (Execution.init start) actions).any (fun last => decide (goal last)) = true) :
    ∃ last, Executions F ok start last ∧ goal last :=
  Library.exists_runWhere goal actions h

end Counted

/-- A collection and its element are enqueued and executed by one worker. -/
theorem begin_run_end_pair : ∃ x : Execution (Fin 2) Empty Unit Unit,
    Executions pair Undisturbed (.plain ()) x ∧ .ended 0 .success ∈ x.data.log ∧
      .ended 1 .success ∈ x.data.log ∧ (x.OnceEach 0 ↔ pair.parent 0 = none) ∧
      (x.OnceEach 1 ↔ pair.parent 1 = none) := by
  obtain ⟨x, run, hcollection, helement⟩ :=
    exists_executions pair Undisturbed (.plain ())
      (fun x : Execution (Fin 2) Empty Unit Unit =>
        .ended 0 .success ∈ x.data.log ∧ .ended 1 .success ∈ x.data.log)
      (List.flatten [[.enqueue () [0]], List.replicate 3 (.run (.caller ())),
        List.replicate 28 (.run (.worker 0))]) (by decide +kernel)
  exact ⟨x, run, hcollection, helement, begin_run_end_iff run hcollection,
    begin_run_end_iff run helement⟩

/-- The element has been begun twice before it runs, although nobody stops or aborts. -/
theorem begun_twice :
    ¬ ∀ x : Execution (Fin 2) Empty Unit Unit, Executions pair Undisturbed (.plain ()) x →
      ∀ job status, .ended job status ∈ x.data.log → x.OnceEach job := by
  intro hclaim
  obtain ⟨x, run, hended, htwice⟩ :=
    exists_executions pair Undisturbed (.plain ())
      (fun x : Execution (Fin 2) Empty Unit Unit =>
        .ended 1 .success ∈ x.data.log ∧ ¬ x.OnceEach 1)
      (List.flatten [[.enqueue () [0]], List.replicate 3 (.run (.caller ())),
        List.replicate 24 (.run (.worker 0))]) (by decide +kernel)
  exact htwice (hclaim x run 1 .success hended)

end Collection

end ThreadWeaver
