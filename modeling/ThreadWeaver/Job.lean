import Mathlib.Data.Nat.Notation
import Mathlib.Tactic.Common

/-!
# Jobs

The part of `jobinterface.h` and `job.cpp` that the queue and the collections read: the
status of a job, in the order of the enumeration, and how the body of a job can end.
-/

namespace ThreadWeaver

/-- `JobInterface::Status`. -/
inductive Status
  | noStatus
  | new
  | queued
  | running
  | success
  | failed
  | aborted
  deriving DecidableEq, Repr

namespace Status

/-- The value of the enumerator, by which the source compares statuses. -/
def toNat : Status → ℕ
  | noStatus => 0
  | new => 1
  | queued => 2
  | running => 3
  | success => 4
  | failed => 5
  | aborted => 6

/-- `Job::isFinished`. -/
def isFinished (status : Status) : Bool :=
  status = success || status = failed || status = aborted

theorem isFinished_iff {status : Status} : status.isFinished ↔ running.toNat < status.toNat := by
  cases status <;> decide

end Status

/-- How `run` ends: by returning with the status untouched, by returning after it has set
the status itself, or by throwing `JobFailed` or `JobAborted`. -/
inductive Outcome
  | returned
  | returnedWith (status : Status)
  | jobFailed
  | jobAborted
  deriving DecidableEq, Repr

/-- The status `Job::execute` leaves when `run` has ended: it turns `Status_Running` into
`Status_Success` after a normal return and translates the two exceptions. -/
def Outcome.status : Outcome → Status
  | returned => .success
  | returnedWith status => if status = .running then .success else status
  | jobFailed => .failed
  | jobAborted => .aborted

/-- The status that `run` sets itself before it returns. -/
def Outcome.statusInRun : Outcome → Option Status
  | returnedWith status => some status
  | _ => none

end ThreadWeaver
