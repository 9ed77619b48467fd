import ThreadWeaver.Weaver.Suspend
import ThreadWeaver.Weaver.DependencySafety
import ThreadWeaver.Collection.Sound
import ThreadWeaver.Collection.History
import ThreadWeaver.Collection.Inversion
import ThreadWeaver.Collection.Completion
import ThreadWeaver.Collection.Release
import ThreadWeaver.Collection.Pairing
import ThreadWeaver.Collection.Outside
import ThreadWeaver.Weaver.Active
import ThreadWeaver.Weaver.Inventory
import ThreadWeaver.Weaver.Suspension
import ThreadWeaver.Weaver.ShutDown
import ThreadWeaver.Weaver.Collecting
import ThreadWeaver.ResourceRestrictionPolicy
import ThreadWeaver.Weaver.DependencyRelease
import ThreadWeaver.Weaver.Restriction
import ThreadWeaver.Weaver.WorkConservation
import ThreadWeaver.Collection.RequestAbort
import ThreadWeaver.Collection.Abort
import ThreadWeaver.Collection.Undisturbed
import ThreadWeaver.Collection.Idle
import ThreadWeaver.Collection.Leaves
import ThreadWeaver.DependencyPairs
import ThreadWeaver.Destruction
import ThreadWeaver.Attempt
import ThreadWeaver.Decorator
import ThreadWeaver.Collection.Failures
import ThreadWeaver.DequeueAll
import ThreadWeaver.Weaver.RequestAbort
import ThreadWeaver.Collection.Finished
import ThreadWeaver.Collection.Stop
import ThreadWeaver.Collection.Executors
import ThreadWeaver.Collection.Deadlock
import ThreadWeaver.Library.Acyclic
import ThreadWeaver.Weaver.Schedule
import ThreadWeaver.Weaver.Reapplication
import ThreadWeaver.Weaver.DependencyProgress
import ThreadWeaver.Weaver.Decorated
import ThreadWeaver.Collection.Blockers
import ThreadWeaver.Rounds
import ThreadWeaver.Collection.Dequeued
import ThreadWeaver.Collection.Accounting
import ThreadWeaver.Collection.Work
import ThreadWeaver.Collection.Progress
import ThreadWeaver.Collection.Fair
import ThreadWeaver.Collection.Evaluation
import ThreadWeaver.Collection.Nesting
import ThreadWeaver.Collection.Pooled
import ThreadWeaver.Weaver.Pooled
import ThreadWeaver.Collection.Ranks
import ThreadWeaver.Collection.Dependencies
import ThreadWeaver.Collection.Timetable
import ThreadWeaver.Collection.Overtaking
