import Mathlib.Data.List.Perm.Subperm
import ThreadWeaver.Collection.Step
import ThreadWeaver.Library.Run

/-!
# Failures in a Collection

The status of a Collection is written by `Job::execute` for its own `run`, by `updateStatus`
for every job that is completed, its own job first, and by `finalCleanup` for the last one.
Here are the steps of one Collection and its elements as far as they have to do with the
status, without stop and abort: the elements are executed at the same time and completed in
any order, and `run` of the Collection, which a class of a program may override, ends in any
way as well.

`updateStatus` overwrites the status every time, with Running after a success.  So what counts
is how the job ended that was completed last: the status says whether all jobs succeeded when
that one did not succeed, or when all did (`Completion.sticky_iff`).
-/

namespace ThreadWeaver.Collection

variable {J : Type*}

/-- What `updateStatus` makes of the status of a completed job. -/
def updated (jobStatus : Status) : Status :=
  if jobStatus ≠ .success then jobStatus else .running

/-- What `finalCleanup` makes of the status of a collection that has not been aborted. -/
def cleanedUp (status : Status) : Status :=
  if status.toNat < Status.success.toNat then .success else status

theorem cleanedUp_updated {status : Status} (h : status.isFinished) :
    cleanedUp (updated status) = status := by
  cases status <;> first | rfl | cases h

section Data

variable {P T σ : Type*} [DecidableEq J] (d : Data J P T σ)

omit [DecidableEq J] in
/-- `updateStatus` of the nested collections. -/
theorem Data.updatedStatus_eq (job : J) : d.updatedStatus job = updated (d.status job) := by
  unfold Data.updatedStatus updated
  by_cases h : d.status job = .success <;> simp [h]

omit [DecidableEq J] in
/-- `finalCleanup` of the nested collections. -/
theorem Data.finalStatus_eq {collection : J} (h : d.shouldAbort collection = false) :
    d.finalStatus collection = cleanedUp (d.status collection) := by
  simp [Data.finalStatus, cleanedUp, h]

end Data

/-- A Collection: its elements, how its own `run` ends and how each of the elements does. -/
structure Batch (J : Type*) where
  elements : List J
  nodup : elements.Nodup
  own : Outcome
  outcome : J → Outcome
  own_isFinished : own.status.isFinished
  outcome_isFinished : ∀ job, (outcome job).status.isFinished

/-- How far a job has got. -/
inductive Part
  | waiting
  | executing
  /-- `run` has returned, and the collection has not counted the job -/
  | reporting
  | counted
  deriving DecidableEq, Repr

/-- The Collection and its elements.  `order` lists the elements in the order in which they were
completed, `ended` is the status with which the end of the Collection has been delivered. -/
structure Completion (J : Type*) where
  status : Status
  elementStatus : J → Status
  jobCounter : ℤ
  selfIsExecuting : Bool
  own : Part
  part : J → Part
  order : List J
  ended : Option Status

namespace Completion

/-- The Collection has been assigned to a worker. -/
def start : Completion J where
  status := .queued
  elementStatus _ := .new
  jobCounter := 0
  selfIsExecuting := false
  own := .waiting
  part _ := .waiting
  order := []
  ended := none

/-- `elementFinished` for a job that ended with `jobStatus`.  For the Collection itself it
enqueues the elements first. -/
def elementFinished (B : Batch J) (jobStatus : Status) (c : Completion J) : Completion J :=
  let c := if c.selfIsExecuting then
      { c with jobCounter := (B.elements.length : ℤ) + 1, selfIsExecuting := false }
    else c
  let c := { c with status := updated jobStatus, jobCounter := c.jobCounter - 1 }
  if c.jobCounter = 0 then
    { c with status := cleanedUp c.status, ended := some (cleanedUp c.status) }
  else c

/-- What threads do with the Collection, `none`, and with its elements. -/
inductive Act (J : Type*)
  | begin (job : Option J)
  | run (job : Option J)
  | finish (job : Option J)
  deriving DecidableEq, Repr

variable [DecidableEq J]

/-- The next step of a job.  The elements wait until the Collection has enqueued them. -/
def step (B : Batch J) (c : Completion J) : Act J → Option (Completion J)
  | .begin none =>
      if c.own = .waiting then
        some { c with own := .executing, selfIsExecuting := true, status := .running }
      else none
  | .run none =>
      if c.own = .executing then some { c with own := .reporting, status := B.own.status }
      else none
  | .finish none =>
      if c.own = .reporting then some { c.elementFinished B c.status with own := .counted }
      else none
  | .begin (some job) =>
      if job ∈ B.elements ∧ c.own = .counted ∧ c.part job = .waiting then
        some { c with
          part := Function.update c.part job .executing
          elementStatus := Function.update c.elementStatus job .running }
      else none
  | .run (some job) =>
      if job ∈ B.elements ∧ c.part job = .executing then
        some { c with
          part := Function.update c.part job .reporting
          elementStatus := Function.update c.elementStatus job (B.outcome job).status }
      else none
  | .finish (some job) =>
      if job ∈ B.elements ∧ c.part job = .reporting then
        some { c.elementFinished B (c.elementStatus job) with
          part := Function.update c.part job .counted
          order := c.order ++ [job] }
      else none

/-- The runs of the Collection, in which its elements are executed and completed in any order. -/
abbrev Runs (B : Batch J) (c : Completion J) : Prop :=
  Library.RunWhere (step B) (fun _ _ => True) start c

end Completion

namespace Batch

variable (B : Batch J)

/-- The own `run` of the Collection and all its elements succeed. -/
def Succeeds : Prop :=
  B.own.status = .success ∧ ∀ job ∈ B.elements, (B.outcome job).status = .success

/-- How the job ended that was completed last: the last of the elements in the order of their
completion, or the Collection itself if there is none. -/
def lastStatus (order : List J) : Status :=
  (order.getLast?.map fun job => (B.outcome job).status).getD B.own.status

theorem lastStatus_concat (order : List J) (job : J) :
    B.lastStatus (order ++ [job]) = (B.outcome job).status := by
  simp [lastStatus]

theorem Succeeds.lastStatus {B : Batch J} (h : B.Succeeds) {order : List J}
    (hsubset : ∀ job ∈ order, job ∈ B.elements) : B.lastStatus order = .success := by
  unfold Batch.lastStatus
  cases hlast : order.getLast? with
  | none => exact h.1
  | some job => exact h.2 job (hsubset job (List.mem_of_getLast? hlast))

end Batch

/-! ## What a run keeps -/

namespace Completion

variable {B : Batch J} {c next : Completion J}

/-- What the steps so far have made of the Collection. -/
structure Tallied (B : Batch J) (c : Completion J) : Prop where
  nodup : c.order.Nodup
  mem_order : ∀ job, job ∈ c.order ↔ c.part job = .counted
  mem_elements : ∀ job, c.part job ≠ .waiting → job ∈ B.elements
  reporting : ∀ job, c.part job = .reporting → c.elementStatus job = (B.outcome job).status
  /-- before the elements have been enqueued -/
  early : c.own ≠ .counted → (∀ job, c.part job = .waiting) ∧ c.ended = none ∧
    (c.own ≠ .waiting → c.selfIsExecuting = true) ∧ (c.own = .reporting → c.status = B.own.status)
  /-- after that the counter counts the elements that are left -/
  late : c.own = .counted → c.selfIsExecuting = false ∧
    c.jobCounter = B.elements.length - c.order.length ∧
    c.ended = if c.jobCounter = 0 then some (B.lastStatus c.order) else none

theorem tallied_start (B : Batch J) : (start : Completion J).Tallied B where
  nodup := List.nodup_nil
  mem_order _ := by simp [start]
  mem_elements _ h := absurd rfl h
  reporting _ h := by cases h
  early _ := ⟨fun _ => rfl, rfl, fun h => absurd rfl h, fun h => by cases h⟩
  late h := by cases h

theorem Tallied.length_le (h : c.Tallied B) : c.order.length ≤ B.elements.length := by
  refine (h.nodup.subperm fun job hjob => h.mem_elements job ?_).length_le
  rw [(h.mem_order job).mp hjob]
  decide

theorem elementFinished_late (hself : c.selfIsExecuting = false) (jobStatus : Status) :
    c.elementFinished B jobStatus =
      if c.jobCounter - 1 = 0 then
        { c with
          status := cleanedUp (updated jobStatus)
          jobCounter := c.jobCounter - 1
          ended := some (cleanedUp (updated jobStatus)) }
      else { c with status := updated jobStatus, jobCounter := c.jobCounter - 1 } := by
  simp [elementFinished, hself]

theorem elementFinished_own (hself : c.selfIsExecuting = true) (jobStatus : Status) :
    c.elementFinished B jobStatus =
      if (B.elements.length : ℤ) = 0 then
        { c with
          status := cleanedUp (updated jobStatus)
          jobCounter := B.elements.length
          selfIsExecuting := false
          ended := some (cleanedUp (updated jobStatus)) }
      else
        { c with
          status := updated jobStatus
          jobCounter := B.elements.length
          selfIsExecuting := false } := by
  simp [elementFinished, hself]

variable [DecidableEq J]

omit [DecidableEq J] in
/-- The own job of the Collection is completed, and the elements are enqueued. -/
theorem Tallied.finishOwn (h : c.Tallied B) (hown : c.own = .reporting) :
    { c.elementFinished B c.status with own := Part.counted }.Tallied B := by
  obtain ⟨hwaiting, hended, hself, hstatus⟩ := h.early (by simp [hown])
  have horder : c.order = [] := List.eq_nil_iff_forall_not_mem.mpr fun job hjob => by
    rw [h.mem_order, hwaiting job] at hjob
    cases hjob
  have hlast : cleanedUp (updated c.status) = B.lastStatus c.order := by
    rw [hstatus hown, cleanedUp_updated B.own_isFinished, horder]
    rfl
  rw [elementFinished_own (hself (by simp [hown]))]
  split
  · rename_i hnone
    refine ⟨h.nodup, h.mem_order, h.mem_elements, h.reporting, fun hnot => absurd rfl hnot,
      fun _ => ⟨rfl, by simp [horder], ?_⟩⟩
    simp [hnone, hlast]
  · rename_i hsome
    refine ⟨h.nodup, h.mem_order, h.mem_elements, h.reporting, fun hnot => absurd rfl hnot,
      fun _ => ⟨rfl, by simp [horder], ?_⟩⟩
    simp only [if_neg hsome]
    exact hended

/-- An element moves on, before it is completed. -/
theorem Tallied.move (h : c.Tallied B) {job : J} {part : Part} (hmem : job ∈ B.elements)
    (hown : c.own = .counted) (hbefore : c.part job ≠ .counted) (hafter : part ≠ .counted)
    {elementStatus : Status} (hstatus : part = .reporting → elementStatus = (B.outcome job).status) :
    { c with
      part := Function.update c.part job part
      elementStatus := Function.update c.elementStatus job elementStatus }.Tallied B := by
  refine ⟨h.nodup, fun other => ?_, fun other hother => ?_, fun other hother => ?_,
    fun hnot => absurd hown hnot, fun _ => h.late hown⟩
  · rw [h.mem_order]
    by_cases hne : other = job
    · subst hne
      simp [hbefore, hafter]
    · simp [Function.update_of_ne hne]
  · by_cases hne : other = job
    · exact hne ▸ hmem
    · simp only [Function.update_of_ne hne] at hother
      exact h.mem_elements other hother
  · by_cases hne : other = job
    · subst hne
      simpa using hstatus (by simpa using hother)
    · simp only [Function.update_of_ne hne] at hother ⊢
      exact h.reporting other hother

/-- An element is completed. -/
theorem Tallied.finishElement (h : c.Tallied B) {job : J} (hmem : job ∈ B.elements)
    (hown : c.own = .counted) (hpart : c.part job = .reporting) :
    { c.elementFinished B (c.elementStatus job) with
      part := Function.update c.part job .counted
      order := c.order ++ [job] }.Tallied B := by
  obtain ⟨hself, hcounter, hended⟩ := h.late hown
  have hnot : job ∉ c.order := by simp [h.mem_order, hpart]
  have hnodup : (c.order ++ [job]).Nodup :=
    List.nodup_append.mpr ⟨h.nodup, List.nodup_singleton job, by
      rintro other hother _ (_ | ⟨_, ⟨⟩⟩) rfl
      exact hnot hother⟩
  have horder : ∀ other, other ∈ c.order ++ [job] ↔
      Function.update c.part job Part.counted other = .counted := by
    intro other
    by_cases hne : other = job
    · simp [hne]
    · simp [h.mem_order, hne]
  have helements : ∀ other, Function.update c.part job Part.counted other ≠ .waiting →
      other ∈ B.elements := by
    intro other hother
    by_cases hne : other = job
    · exact hne ▸ hmem
    · rw [Function.update_of_ne hne] at hother
      exact h.mem_elements other hother
  have hreporting : ∀ other, Function.update c.part job Part.counted other = .reporting →
      c.elementStatus other = (B.outcome other).status := by
    intro other hother
    by_cases hne : other = job
    · subst hne
      simp at hother
    · rw [Function.update_of_ne hne] at hother
      exact h.reporting other hother
  have hlast : cleanedUp (updated (c.elementStatus job)) = B.lastStatus (c.order ++ [job]) := by
    rw [h.reporting job hpart, cleanedUp_updated (B.outcome_isFinished job), B.lastStatus_concat]
  have hleft : c.jobCounter - 1 = (B.elements.length : ℤ) - (c.order ++ [job]).length := by
    rw [hcounter, List.length_append, List.length_singleton]
    omega
  -- the job was not counted before, so the counter had not come to 0
  have hopen : c.ended = none := by
    have hlength : (c.order ++ [job]).length ≤ B.elements.length :=
      (hnodup.subperm fun other hother => helements other (by
        rw [(horder other).mp hother]
        decide)).length_le
    rw [hended, if_neg]
    omega
  rw [elementFinished_late hself]
  split
  · rename_i hzero
    refine ⟨hnodup, horder, helements, hreporting, fun hnot => absurd hown hnot,
      fun _ => ⟨hself, hleft, ?_⟩⟩
    simp only [hzero, if_true, hlast]
  · rename_i hmore
    refine ⟨hnodup, horder, helements, hreporting, fun hnot => absurd hown hnot,
      fun _ => ⟨hself, hleft, ?_⟩⟩
    simp only [if_neg hmore]
    exact hopen

theorem Tallied.step (h : c.Tallied B) {action : Act J}
    (hstep : Completion.step B c action = some next) : next.Tallied B := by
  have hcounted : ∀ job, c.part job ≠ .waiting → c.own = .counted := by
    intro job hjob
    by_contra hnot
    exact hjob ((h.early hnot).1 job)
  rcases action with (_ | job) | (_ | job) | (_ | job) <;>
    simp only [Completion.step, Option.ite_none_right_eq_some, Option.some.injEq] at hstep
  · -- the Collection begins
    obtain ⟨hown, rfl⟩ := hstep
    obtain ⟨hwaiting, hended, -, -⟩ := h.early (by simp [hown])
    exact ⟨h.nodup, h.mem_order, h.mem_elements, h.reporting,
      fun _ => ⟨hwaiting, hended, fun _ => rfl, fun hreporting => by cases hreporting⟩,
      fun hcounted => by cases hcounted⟩
  · obtain ⟨⟨hmem, hown, hpart⟩, rfl⟩ := hstep
    exact h.move hmem hown (by simp [hpart]) (by simp) (by simp)
  · -- its own `run` ends
    obtain ⟨hown, rfl⟩ := hstep
    obtain ⟨hwaiting, hended, hself, -⟩ := h.early (by simp [hown])
    exact ⟨h.nodup, h.mem_order, h.mem_elements, h.reporting,
      fun _ => ⟨hwaiting, hended, fun _ => hself (by simp [hown]), fun _ => rfl⟩,
      fun hcounted => by cases hcounted⟩
  · obtain ⟨⟨hmem, hpart⟩, rfl⟩ := hstep
    exact h.move hmem (hcounted job (by simp [hpart])) (by simp [hpart]) (by simp) fun _ => rfl
  · obtain ⟨hown, rfl⟩ := hstep
    exact h.finishOwn hown
  · obtain ⟨⟨hmem, hpart⟩, rfl⟩ := hstep
    exact h.finishElement hmem (hcounted job (by simp [hpart])) hpart

theorem runs_tallied (hrun : Runs B c) : c.Tallied B :=
  hrun.invariant (tallied_start B) fun _ _ _ h _ hstep => h.step hstep

/-- **Failures are sticky** exactly if the job that is completed last did not succeed, or all jobs
did. -/
theorem sticky_iff (B : Batch J) {c : Completion J} (hrun : Runs B c) {status : Status}
    (hended : c.ended = some status) :
    (status = .success ↔ B.Succeeds) ↔ B.lastStatus c.order ≠ .success ∨ B.Succeeds := by
  have h := runs_tallied hrun
  have hown : c.own = .counted := by
    by_contra hnot
    rw [(h.early hnot).2.1] at hended
    cases hended
  obtain ⟨-, -, hlate⟩ := h.late hown
  rw [hended] at hlate
  have hstatus : status = B.lastStatus c.order := by
    split at hlate
    · exact Option.some.inj hlate
    · cases hlate
  have hsucceeds : B.Succeeds → B.lastStatus c.order = .success := fun hall =>
    hall.lastStatus fun job hjob => h.mem_elements job (by rw [(h.mem_order job).mp hjob]; decide)
  rw [hstatus]
  constructor
  · intro hiff
    by_cases hlast : B.lastStatus c.order = .success
    · exact .inr (hiff.mp hlast)
    · exact .inl hlast
  · rintro (hlast | hall)
    · exact ⟨fun h => absurd h hlast, fun h => absurd (hsucceeds h) hlast⟩
    · exact ⟨fun _ => hall, hsucceeds⟩

/-- Two elements, of which the first one fails. -/
def oneFails : Batch ℕ where
  elements := [0, 1]
  nodup := by decide
  own := .returned
  outcome job := if job = 0 then .jobFailed else .returned
  own_isFinished := rfl
  outcome_isFinished job := by split <;> rfl

/-- The Collection is executed, and then its elements in the given order. -/
def inOrder (jobs : List ℕ) : List (Act ℕ) :=
  (none :: jobs.map some).flatMap fun job => [.begin job, .run job, .finish job]

private theorem exists_inOrder (jobs : List ℕ) (status : Status)
    (h : (Library.execute (step oneFails) (fun _ _ => True) start (inOrder jobs)).any
      (fun c : Completion ℕ => decide (c.ended = some status ∧ c.order = jobs)) = true) :
    ∃ c, Runs oneFails c ∧ c.ended = some status ∧ c.order = jobs :=
  Library.exists_runWhere (fun c : Completion ℕ => c.ended = some status ∧ c.order = jobs)
    (inOrder jobs) h

/-- The element that fails is completed last, and the Collection fails. -/
theorem sticky_iff_failedLast : ∃ c, Runs oneFails c ∧ c.ended = some .failed ∧
    (Status.failed = .success ↔ oneFails.Succeeds) := by
  obtain ⟨c, hrun, hended, horder⟩ := exists_inOrder [1, 0] .failed (by decide)
  refine ⟨c, hrun, hended, (sticky_iff oneFails hrun hended).mpr (.inl ?_)⟩
  rw [horder]
  decide

/-- The other one is completed last, and the failure is gone. -/
theorem not_sticky : ¬ ∀ (B : Batch ℕ) (c : Completion ℕ) (status : Status), Runs B c →
    c.ended = some status → (status = .success ↔ B.Succeeds) := by
  intro hall
  obtain ⟨c, hrun, hended, -⟩ := exists_inOrder [0, 1] .success (by decide)
  have hsucceeds := (hall oneFails c .success hrun hended).mp rfl
  exact absurd (hsucceeds.2 0 (by decide)) (by decide)

end Completion

end ThreadWeaver.Collection
