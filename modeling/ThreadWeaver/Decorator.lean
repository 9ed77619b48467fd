import ThreadWeaver.Job
import Mathlib.Data.List.Infix

/-!
# Decorated jobs

A decorator has every method of a job and forwards it to the job it decorates.  `execute` is
handed the pointer that the queue holds and hands it on, so that `Job::execute` calls the hooks
of the outermost decorator.  `blockingExecute` has no such pointer: the innermost job makes one
of itself, and none of the hooks of the decorators is called.
-/

namespace ThreadWeaver

/-- The methods that `Job::execute` calls through the executor. -/
inductive Hook
  | defaultBegin
  | run
  | defaultEnd
  deriving DecidableEq, Repr

/-- What a hook throws.  `Job::execute` catches the first two and lets anything else pass. -/
inductive Thrown
  | jobAborted
  | jobFailed
  | other
  deriving DecidableEq, Repr

/-- The body of a hook that a class derived from `IdDecorator` overrides: it reads and sets the
status and calls the hooks of `IdDecorator`, any number of them, catching what they throw. -/
inductive Body
  | ret
  | throw (thrown : Thrown)
  | setStatus (status : Status) (next : Body)
  | status (next : Status → Body)
  | base (hook : Hook) (next : Option Thrown → Body)

/-- The overrides of one decorator.  Where it has none, the method of `IdDecorator` forwards. -/
abbrev Decorator :=
  Hook → Option Body

namespace Decorator

/-- A call of a hook at a level, counted from the decorated job at level zero.  It is `own` if
the class of this level has the method, and forwarding otherwise. -/
structure Call where
  level : ℕ
  hook : Hook
  own : Bool
  deriving DecidableEq, Repr

/-- The status, which all levels share, and the calls so far. -/
structure Frame where
  status : Status
  calls : List Call
  deriving DecidableEq, Repr

def Frame.setStatus (frame : Frame) (status : Status) : Frame :=
  { frame with status := status }

def Frame.record (frame : Frame) (call : Call) : Frame :=
  { frame with calls := frame.calls ++ [call] }

/-- The calls of the methods that the classes of the levels have. -/
def Frame.ownCalls (frame : Frame) : List Call :=
  frame.calls.filter Call.own

/-- How a hook ends: what it throws, if anything, and the frame it leaves. -/
abbrev Ended :=
  Option Thrown × Frame

/-- A body, with the hooks of `IdDecorator` it calls. -/
def perform (hooks : Hook → Frame → Ended) : Body → Frame → Ended
  | .ret, frame => (none, frame)
  | .throw thrown, frame => (some thrown, frame)
  | .setStatus status next, frame => perform hooks next (frame.setStatus status)
  | .status next, frame => perform hooks (next frame.status) frame
  | .base hook next, frame =>
      perform hooks (next (hooks hook frame).1) (hooks hook frame).2

/-- The hooks of the decorated job: `run` ends as the outcome says, the others return. -/
def callJob (job : Outcome) (hook : Hook) (frame : Frame) : Ended :=
  match hook, job with
  | .run, .returnedWith status => (none, (frame.record ⟨0, .run, true⟩).setStatus status)
  | .run, .jobFailed => (some .jobFailed, frame.record ⟨0, .run, true⟩)
  | .run, .jobAborted => (some .jobAborted, frame.record ⟨0, .run, true⟩)
  | hook, _ => (none, frame.record ⟨0, hook, true⟩)

/-- `self->defaultBegin`, `self->run` or `self->defaultEnd` for a chain of decorators, the
outermost first. -/
def call (job : Outcome) : List Decorator → Hook → Frame → Ended
  | [], hook, frame => callJob job hook frame
  | decorator :: decorated, hook, frame =>
      match decorator hook with
      | none => call job decorated hook (frame.record ⟨decorated.length + 1, hook, false⟩)
      | some body =>
          perform (call job decorated) body (frame.record ⟨decorated.length + 1, hook, true⟩)

/-- The status that `Job::execute` sets when `run` has ended. -/
def caught (status : Status) : Option Thrown → Status
  | none => if status = .running then .success else status
  | some .jobAborted => .aborted
  | some .jobFailed => .failed
  | some .other => status

/-- `Job::execute` for the pointer `self`. -/
def executeJob (job : Outcome) (self : List Decorator) (frame : Frame) : Ended :=
  let begun := call job self .defaultBegin frame
  if begun.1.isSome then begun
  else
    let ran := call job self .run (begun.2.setStatus .running)
    if ran.1 = some .other then ran
    else call job self .defaultEnd (ran.2.setStatus (caught ran.2.status ran.1))

/-- `IdDecorator::execute`, down to `Job::execute`. -/
def execute (job : Outcome) (self : List Decorator) : List Decorator → Frame → Ended
  | [], frame => executeJob job self frame
  | _ :: decorated, frame => execute job self decorated frame

/-- `IdDecorator::blockingExecute`, down to `Job::blockingExecute`. -/
def blockingExecute (job : Outcome) : List Decorator → Frame → Ended
  | [], frame => execute job [] [] frame
  | _ :: decorated, frame => blockingExecute job decorated frame

/-- `job->execute(job, this)` in `Thread::run`. -/
def threadExecute (job : Outcome) (levels : List Decorator) (frame : Frame) : Ended :=
  execute job levels levels frame

@[simp] theorem Frame.setStatus_status (frame : Frame) (status : Status) :
    (frame.setStatus status).status = status :=
  rfl

@[simp] theorem Frame.setStatus_calls (frame : Frame) (status : Status) :
    (frame.setStatus status).calls = frame.calls :=
  rfl

@[simp] theorem Frame.record_status (frame : Frame) (call : Call) :
    (frame.record call).status = frame.status :=
  rfl

@[simp] theorem Frame.record_calls (frame : Frame) (call : Call) :
    (frame.record call).calls = frame.calls ++ [call] :=
  rfl

variable (job : Outcome) {levels : List Decorator} {hook : Hook} {frame : Frame}

/-! ## Calls are recorded and stay recorded -/

theorem calls_prefix_record (frame : Frame) (call : Call) :
    frame.calls <+: (frame.record call).calls :=
  List.prefix_append _ _

theorem calls_prefix_perform {hooks : Hook → Frame → Ended}
    (hhooks : ∀ hook frame, frame.calls <+: (hooks hook frame).2.calls) (body : Body)
    (frame : Frame) : frame.calls <+: (perform hooks body frame).2.calls := by
  induction body generalizing frame with
  | ret => exact List.prefix_rfl
  | throw thrown => exact List.prefix_rfl
  | setStatus status next ih => exact ih (frame.setStatus status)
  | status next ih => exact ih _ _
  | base hook next ih => exact (hhooks hook frame).trans (ih _ _)

theorem calls_prefix_callJob (job : Outcome) (hook : Hook) (frame : Frame) :
    frame.calls <+: (callJob job hook frame).2.calls := by
  unfold callJob
  split <;> exact calls_prefix_record _ _

theorem calls_prefix_call (job : Outcome) (levels : List Decorator) (hook : Hook)
    (frame : Frame) : frame.calls <+: (call job levels hook frame).2.calls := by
  induction levels generalizing hook frame with
  | nil => exact calls_prefix_callJob job hook frame
  | cons decorator decorated ih =>
      unfold call
      split
      · exact (calls_prefix_record _ _).trans (ih _ _)
      · exact (calls_prefix_record _ _).trans (calls_prefix_perform ih _ _)

/-- The outermost level records the call. -/
theorem exists_mem_call (decorator : Decorator) (decorated : List Decorator) (hook : Hook)
    (frame : Frame) :
    ∃ own, ⟨decorated.length + 1, hook, own⟩ ∈
      (call job (decorator :: decorated) hook frame).2.calls := by
  have hrecorded : ∀ own, (⟨decorated.length + 1, hook, own⟩ : Call) ∈
      (frame.record ⟨decorated.length + 1, hook, own⟩).calls := fun own => by simp
  unfold call
  split
  · exact ⟨false, (calls_prefix_call _ _ _ _).subset (hrecorded false)⟩
  · exact ⟨true, (calls_prefix_perform (calls_prefix_call job decorated) _ _).subset
      (hrecorded true)⟩

/-- A hook that some level overrides is called at the outermost of these levels. -/
theorem exists_own_mem_call (hoverrides : ∃ level ∈ levels, level hook ≠ none) (frame : Frame) :
    ∃ called ∈ (call job levels hook frame).2.calls, called.own = true ∧ 0 < called.level := by
  induction levels generalizing frame with
  | nil => simp at hoverrides
  | cons decorator decorated ih =>
      unfold call
      split
      · rename_i hforwards
        obtain ⟨level, hmem, hlevel⟩ := hoverrides
        rcases List.mem_cons.mp hmem with rfl | hmem
        · exact absurd hforwards hlevel
        · exact ih ⟨level, hmem, hlevel⟩ _
      · exact ⟨⟨decorated.length + 1, hook, true⟩,
          (calls_prefix_perform (calls_prefix_call job decorated) _ _).subset (by simp), rfl,
          Nat.succ_pos _⟩

/-! ## Levels that forward -/

/-- What the hooks of the decorated job throw. -/
theorem callJob_fst (job : Outcome) (hook : Hook) (frame : Frame) :
    (callJob job hook frame).1 =
      match hook, job with
      | .run, .jobFailed => some .jobFailed
      | .run, .jobAborted => some .jobAborted
      | _, _ => none := by
  cases hook <;> cases job <;> rfl

theorem callJob_status (job : Outcome) (hook : Hook) (frame : Frame) :
    (callJob job hook frame).2.status =
      match hook, job with
      | .run, .returnedWith status => status
      | _, _ => frame.status := by
  cases hook <;> cases job <;> rfl

theorem callJob_calls (job : Outcome) (hook : Hook) (frame : Frame) :
    (callJob job hook frame).2.calls = frame.calls ++ [⟨0, hook, true⟩] := by
  cases hook <;> cases job <;> rfl

/-- Through levels that all forward, a call is the one of the decorated job: the forwarding
calls come before it. -/
theorem call_of_forwards (hforwards : ∀ level ∈ levels, level hook = none) (frame : Frame) :
    (call job levels hook frame).1 = (callJob job hook frame).1 ∧
      (call job levels hook frame).2.status = (callJob job hook frame).2.status ∧
      (call job levels hook frame).2.ownCalls = frame.ownCalls ++ [⟨0, hook, true⟩] := by
  induction levels generalizing frame with
  | nil => exact ⟨rfl, rfl, by simp [call, Frame.ownCalls, callJob_calls]⟩
  | cons decorator decorated ih =>
      rw [call, hforwards decorator List.mem_cons_self]
      obtain ⟨hthrown, hstatus, hcalls⟩ :=
        ih (fun level hmem => hforwards level (List.mem_cons_of_mem _ hmem))
          (frame.record ⟨decorated.length + 1, hook, false⟩)
      refine ⟨hthrown.trans ?_, hstatus.trans ?_, hcalls.trans ?_⟩
      · rw [callJob_fst, callJob_fst]
      · rw [callJob_status, callJob_status, Frame.record_status]
      · simp [Frame.ownCalls]

/-! ## The two ways to execute a decorated job -/

/-- `blockingExecute` is the one of the decorated job, whatever decorates it. -/
theorem blockingExecute_eq (job : Outcome) (levels : List Decorator) (frame : Frame) :
    blockingExecute job levels frame = executeJob job [] frame := by
  induction levels with
  | nil => rfl
  | cons decorator decorated ih => exact ih

theorem execute_eq (job : Outcome) (self levels : List Decorator) (frame : Frame) :
    execute job self levels frame = executeJob job self frame := by
  induction levels with
  | nil => rfl
  | cons decorator decorated ih => exact ih

/-- The three hooks of the decorated job, one after the other. -/
def jobCalls : List Call :=
  [⟨0, .defaultBegin, true⟩, ⟨0, .run, true⟩, ⟨0, .defaultEnd, true⟩]

/-- Where every level forwards `defaultBegin` and `run`, the end of the job is called, with the
status of its outcome. -/
theorem executeJob_of_forwards
    (hbegin : ∀ level ∈ levels, level .defaultBegin = none)
    (hrun : ∀ level ∈ levels, level .run = none) (frame : Frame) :
    ∃ ran : Frame, executeJob job levels frame = call job levels .defaultEnd ran ∧
      ran.status = job.status ∧
      ran.ownCalls = frame.ownCalls ++ [⟨0, .defaultBegin, true⟩, ⟨0, .run, true⟩] := by
  obtain ⟨hbegun, -, hbegins⟩ := call_of_forwards job hbegin frame
  set begun := call job levels .defaultBegin frame
  obtain ⟨hthrown, hstatus, hruns⟩ :=
    call_of_forwards job hrun (begun.2.setStatus .running)
  set ran := call job levels .run (begun.2.setStatus .running)
  rw [callJob_fst] at hbegun hthrown
  rw [callJob_status] at hstatus
  refine ⟨ran.2.setStatus (caught ran.2.status ran.1), ?_, ?_, ?_⟩
  · have hcaught : ran.1 ≠ some .other := by
      rw [hthrown]
      cases job <;> simp
    show (if begun.1.isSome then begun else if ran.1 = some .other then ran else _) = _
    rw [hbegun, if_neg (by simp), if_neg hcaught]
  · rw [Frame.setStatus_status, hthrown, hstatus]
    cases job <;> rfl
  · calc ran.2.ownCalls
        = (begun.2.setStatus .running).ownCalls ++ [⟨0, .run, true⟩] := hruns
      _ = (frame.ownCalls ++ [⟨0, .defaultBegin, true⟩]) ++ [⟨0, .run, true⟩] :=
          congrArg (· ++ [⟨0, .run, true⟩]) hbegins
      _ = _ := by simp

/-- Through levels that all forward, the decorated job is executed as it is without them. -/
theorem executeJob_of_forwards_all (hforwards : ∀ level ∈ levels, ∀ hook, level hook = none)
    (frame : Frame) :
    (executeJob job levels frame).2.ownCalls = frame.ownCalls ++ jobCalls ∧
      (executeJob job levels frame).2.status = job.status := by
  obtain ⟨ran, hexecute, hstatus, hcalls⟩ :=
    executeJob_of_forwards job (fun level hmem => hforwards level hmem .defaultBegin)
      (fun level hmem => hforwards level hmem .run) frame
  obtain ⟨-, hended, hends⟩ := call_of_forwards job
    (fun level hmem => hforwards level hmem .defaultEnd) ran
  rw [hexecute]
  refine ⟨?_, ?_⟩
  · rw [hends, hcalls]
    simp [jobCalls]
  · rw [hended, callJob_status, hstatus]

/-- What has been called before the body of the job or by it is called in the execution. -/
theorem calls_prefix_executeJob (frame : Frame) :
    (call job levels .defaultBegin frame).2.calls <+: (executeJob job levels frame).2.calls ∧
      ((call job levels .defaultBegin frame).1 = none →
        (call job levels .run
            ((call job levels .defaultBegin frame).2.setStatus .running)).2.calls <+:
          (executeJob job levels frame).2.calls) := by
  set begun := call job levels .defaultBegin frame
  set ran := call job levels .run (begun.2.setStatus .running)
  have hruns : begun.2.calls <+: ran.2.calls :=
    calls_prefix_call job levels .run (begun.2.setStatus .running)
  have hends : ran.2.calls <+: (call job levels .defaultEnd
      (ran.2.setStatus (caught ran.2.status ran.1))).2.calls :=
    calls_prefix_call job levels .defaultEnd (ran.2.setStatus (caught ran.2.status ran.1))
  have hexecute : executeJob job levels frame = if begun.1.isSome then begun
      else if ran.1 = some .other then ran
      else call job levels .defaultEnd (ran.2.setStatus (caught ran.2.status ran.1)) := rfl
  rw [hexecute]
  split
  · rename_i hthrown
    exact ⟨List.prefix_rfl, fun hnone => by simp [hnone] at hthrown⟩
  · split
    · exact ⟨hruns, fun _ => List.prefix_rfl⟩
    · exact ⟨hruns.trans hends, fun _ => hends⟩

/-- A worker calls an override of some level if any level has one. -/
theorem exists_own_mem_executeJob (hoverrides : ∃ level ∈ levels, ∃ hook, level hook ≠ none)
    (frame : Frame) :
    ∃ called ∈ (executeJob job levels frame).2.calls, called.own = true ∧ 0 < called.level := by
  obtain ⟨hbegins, hruns⟩ := calls_prefix_executeJob job frame
  by_cases hbegin : ∃ level ∈ levels, level .defaultBegin ≠ none
  · obtain ⟨called, hmem, hcalled⟩ := exists_own_mem_call job hbegin frame
    exact ⟨called, hbegins.subset hmem, hcalled⟩
  push Not at hbegin
  by_cases hrun : ∃ level ∈ levels, level .run ≠ none
  · obtain ⟨called, hmem, hcalled⟩ := exists_own_mem_call job hrun _
    have hreturned : (call job levels .defaultBegin frame).1 = none := by
      rw [(call_of_forwards job hbegin frame).1, callJob_fst]
    exact ⟨called, (hruns hreturned).subset hmem, hcalled⟩
  push Not at hrun
  obtain ⟨ran, hexecute, -⟩ := executeJob_of_forwards job hbegin hrun frame
  have hend : ∃ level ∈ levels, level .defaultEnd ≠ none := by
    obtain ⟨level, hmem, hook, hlevel⟩ := hoverrides
    cases hook with
    | defaultBegin => exact absurd (hbegin level hmem) hlevel
    | run => exact absurd (hrun level hmem) hlevel
    | defaultEnd => exact ⟨level, hmem, hlevel⟩
  rw [hexecute]
  exact exists_own_mem_call job hend ran

/-- `blockingExecute` calls the hooks of the decorated job and none of a decorator. -/
theorem blockingExecute_calls (job : Outcome) (levels : List Decorator) (status : Status) :
    (blockingExecute job levels ⟨status, []⟩).2.calls = jobCalls ∧
      (blockingExecute job levels ⟨status, []⟩).2.status = job.status := by
  rw [blockingExecute_eq]
  cases job <;> exact ⟨rfl, rfl⟩

/-- **Blocking and queued execution agree exactly for jobs without overrides.**  Counting every
method of a level that is called, they agree if nothing decorates the job; counting the methods
that the classes of the levels have themselves, if no level overrides a hook. -/
theorem blockingExecute_agrees_iff (job : Outcome) (levels : List Decorator) (status : Status) :
    let blocking := (blockingExecute job levels ⟨status, []⟩).2
    let queued := (threadExecute job levels ⟨.queued, []⟩).2
    (blocking.ownCalls = queued.ownCalls ∧ blocking.status = queued.status ↔
        ∀ level ∈ levels, ∀ hook, level hook = none) ∧
      (blocking.calls = queued.calls ∧ blocking.status = queued.status ↔ levels = []) := by
  obtain ⟨hblocking, hstatus⟩ := blockingExecute_calls job levels status
  have hthread : threadExecute job levels ⟨.queued, []⟩ = executeJob job levels ⟨.queued, []⟩ :=
    execute_eq job levels levels _
  rw [hthread]
  refine ⟨⟨fun hagree => ?_, fun hforwards => ?_⟩, fun hagree => ?_, fun hnil => ?_⟩
  · by_contra hoverrides
    push Not at hoverrides
    obtain ⟨called, hmem, hown, hlevel⟩ :=
      exists_own_mem_executeJob job hoverrides ⟨.queued, []⟩
    have hcalled : called ∈ jobCalls.filter Call.own := by
      rw [← hblocking, ← Frame.ownCalls, hagree.1]
      exact List.mem_filter.mpr ⟨hmem, hown⟩
    simp only [jobCalls, List.mem_filter, List.mem_cons, List.not_mem_nil, or_false] at hcalled
    rcases hcalled with ⟨rfl | rfl | rfl, -⟩ <;> simp at hlevel
  · obtain ⟨hcalls, hended⟩ := executeJob_of_forwards_all job hforwards ⟨.queued, []⟩
    rw [hcalls, hended, Frame.ownCalls, hblocking, hstatus]
    exact ⟨rfl, rfl⟩
  · cases levels with
    | nil => rfl
    | cons decorator decorated =>
        obtain ⟨own, hmem⟩ := exists_mem_call job decorator decorated .defaultBegin
          ⟨.queued, []⟩
        have hcalled := (calls_prefix_executeJob job _).1.subset hmem
        rw [← hagree.1, hblocking] at hcalled
        simp [jobCalls] at hcalled
  · subst hnil
    rw [hblocking, hstatus]
    cases job <;> exact ⟨rfl, rfl⟩

/-- A decorator whose `run` runs the decorated job and then reports a failure. -/
def failing : Decorator := fun hook =>
  if hook = .run then some (.base .run fun _ => .throw .jobFailed) else none

/-- Executed by a worker the decorated job fails, executed blocking it succeeds. -/
theorem blockingExecute_failing :
    ⟨1, .run, true⟩ ∈ (threadExecute .returned [failing] ⟨.queued, []⟩).2.calls ∧
      (threadExecute .returned [failing] ⟨.queued, []⟩).2.status = .failed ∧
      ⟨1, .run, true⟩ ∉ (blockingExecute .returned [failing] ⟨.new, []⟩).2.calls ∧
      (blockingExecute .returned [failing] ⟨.new, []⟩).2.status = .success := by
  decide

end Decorator

end ThreadWeaver
