import ThreadWeaver.Collection.Turns

/-!
# Finished means finished

A collection is meant to keep the status of a running job until all of its elements are done.
But `Job::execute` sets it to success when its own job has run, which is before the elements are
handed to the queue, and the completion of its own job sets it back to running.  So `isFinished`
is true too early whenever a collection is executed, and does not stay so: the runs that keep the
promise are those that stop short of the two steps (`finished_means_finished`).
-/

namespace ThreadWeaver.Collection

variable {J P T σ : Type*} [DecidableEq J]

/-- A thread has the element in hand to enqueue it, or its collection has still to hand it to the
queue, which it does not do once it has been asked to abort. -/
def Data.WaitsToBeEnqueued (d : Data J P T σ) (collection element : J) : Prop :=
  d.place element = .fresh ∧ d.shouldAbort collection = false ∨
    ∃ thread, d.place element = .held .pending thread

/-- No element of the collection waits to be enqueued, is queued or is being executed. -/
def Data.NoneOutstanding (F : Forest J P σ) (d : Data J P T σ) (collection : J) : Prop :=
  ∀ element, F.parent element = some collection →
    ¬ d.WaitsToBeEnqueued collection element ∧ element ∉ d.assignments ∧
      (d.place element).isActive = false

section Runs

variable [DecidableEq P] [DecidableEq T]

/-- When `isFinished` is true of a collection that has been assigned, none of its elements is
outstanding, and `isFinished` stays true in the runs that go on from there. -/
def FinishedMeansFinished (F : Forest J P σ) (ok : State J P T σ → Act J T → Prop)
    (collection : J) (s : State J P T σ) : Prop :=
  (s.data.place collection).isAssigned = true → (s.data.status collection).isFinished = true →
    s.data.NoneOutstanding F collection ∧
      ∀ last, Library.RunWhere (step F) ok s last →
        (last.data.status collection).isFinished = true

omit [DecidableEq J] [DecidableEq P] [DecidableEq T] in
/-- `Job::execute` does not set the collection to success while elements are still to be enqueued,
and the own job of the collection is not completed. -/
def HoldsBack (F : Forest J P σ) (collection : J) (s : State J P T σ) (act : Act J T) : Prop :=
  s.nextOp act ≠ some (.processCompletedElement collection collection) ∧
    (s.nextOp act = some (.run collection) →
      F.elements collection = [] ∨ s.data.shouldAbort collection = true)

instance (F : Forest J P σ) (collection : J) (s : State J P T σ) (act : Act J T) :
    Decidable (HoldsBack F collection s act) :=
  inferInstanceAs (Decidable (_ ∧ _))

omit [DecidableEq J] [DecidableEq P] [DecidableEq T] in
/-- The own job of the collection has run and is still to be completed, and there is nothing to be
enqueued. -/
structure State.Stalled (F : Forest J P σ) (collection : J) (s : State J P T σ) : Prop where
  completes : ∃ thread, .elementFinished collection collection ∈ s.stack thread ∨
    .processCompletedElement collection collection ∈ s.stack thread
  aborted : ∀ element, F.parent element = some collection →
    s.data.shouldAbort collection = true ∧ s.data.place element = .fresh

variable {F : Forest J P σ} {s next : State J P T σ} {collection element : J}
  {thread : Thread T} {op : Op J} {rest : List (Op J)} {act : Act J T}

namespace State.Stalled

omit [DecidableEq P] [DecidableEq T] in
theorem noneOutstanding (h : s.Stalled F collection) (hs : s.Sound F) :
    s.data.NoneOutstanding F collection := by
  intro element hparent
  obtain ⟨habort, hfresh⟩ := h.aborted element hparent
  refine ⟨?_, ?_, ?_⟩
  · rintro (⟨-, hnot⟩ | ⟨thread, hpending⟩)
    · rw [habort] at hnot
      cases hnot
    · rw [hfresh] at hpending
      cases hpending
  · intro hlisted
    rcases hs.listed element hlisted with hqueued | ⟨thread, hop⟩
    · rw [hfresh] at hqueued
      cases hqueued
    · rcases (hs.of_takeAt hop).2 with hplace | hplace <;>
      · rw [hfresh] at hplace
        cases hplace
  · rw [hfresh]
    rfl

omit [DecidableEq J] [DecidableEq P] [DecidableEq T] in
theorem isFinished (h : s.Stalled F collection) (hr : s.Reporting F) :
    (s.data.status collection).isFinished = true := by
  obtain ⟨thread, hop⟩ := h.completes
  rw [hr.self thread collection hop]
  rfl

theorem runThread (h : s.Stalled F collection) (hs : s.Sound F)
    (hok : HoldsBack F collection s (.run thread)) (hstep : s.runThread F thread = some next) :
    next.Stalled F collection := by
  obtain ⟨op, rest, hstack, hfree, rfl⟩ := State.runThread_eq_some hstep
  refine ⟨?_, fun element hparent => ?_⟩
  · obtain ⟨other, hop⟩ := h.completes
    refine ⟨other, ?_⟩
    dsimp only
    by_cases heq : other = thread
    · subst heq
      rw [Function.update_self]
      rw [hstack, List.mem_cons, List.mem_cons] at hop
      rcases hop with (rfl | hbelow) | (rfl | hbelow)
      · -- the completion takes the place of the call of `elementFinished`
        right
        simp only [exec]
        split
        · split <;> simp
        · simp
      · exact .inl (List.mem_append_right _ hbelow)
      · exact absurd (by simp [State.nextOp, hstack]) hok.1
      · exact .inr (List.mem_append_right _ hbelow)
    · rw [Function.update_of_ne heq]
      exact hop
  · obtain ⟨habort, hfresh⟩ := h.aborted element hparent
    refine ⟨exec_shouldAbort F thread op habort, ?_⟩
    rcases hs.exec_place hstack hfree element with hsame | hmoves
    · rw [hsame, hfresh]
    · -- only a collection that is not to be aborted hands its elements over
      rw [hfresh] at hmoves
      generalize (exec F thread op s.data).1.place element = after at hmoves ⊢
      cases hmoves with
      | pending hparent' _ hnot =>
          rw [hparent] at hparent'
          cases hparent'
          rw [habort] at hnot
          cases hnot

theorem step (h : s.Stalled F collection) (hs : s.Sound F) (hok : HoldsBack F collection s act)
    (hstep : step F s act = some next) : next.Stalled F collection := by
  refine step_rule h ?_ ?_ ?_ hstep
  · rintro thread rfl hran
    exact h.runThread hs hok hran
  · intro caller jobs _ hjobs
    refine ⟨h.completes, fun element hparent => ?_⟩
    rw [State.takeUp_place hjobs hparent]
    exact h.aborted element hparent
  · intro before caller hbefore hbegin
    have hmem := State.mem_of_beginCall hbegin
    obtain ⟨-, rfl⟩ := State.beginCall_eq_some hbegin
    obtain ⟨thread, hop⟩ := hbefore.completes
    exact ⟨⟨thread, hop.imp (hmem thread _) (hmem thread _)⟩, hbefore.aborted⟩

end State.Stalled

omit [DecidableEq J] [DecidableEq P] [DecidableEq T] in
/-- A collection is not finished until its own job has run, and then it is stalled. -/
def State.HeldBack (F : Forest J P σ) (collection : J) (s : State J P T σ) : Prop :=
  (s.data.status collection).isFinished = false ∧ (s.data.place collection).isLate = false ∨
    s.Stalled F collection

namespace State.HeldBack

omit [DecidableEq T] in
/-- The status of a collection becomes that of a finished job when its own job has run. -/
theorem exec_isFinished (hs : s.Sound F) (hstack : s.stack thread = op :: rest)
    (hfree : ∀ mutex, wants F op = some mutex → s.data.holder mutex = none)
    (hkind : F.kind collection ≠ .plain) (hlate : (s.data.place collection).isLate = false)
    (hstatus : (s.data.status collection).isFinished = false) (hne : op ≠ .run collection) :
    ((exec F thread op s.data).1.status collection).isFinished = false := by
  have hop : op ∈ s.stack thread := by
    rw [hstack]
    exact List.mem_cons_self
  have hcompleting : ∀ {job : J}, (∀ rest, Fits F op rest ↔ F.Concerns collection job) →
      op.jobs ≠ [(job, if job = collection then .closing else .reporting)] := by
    intro job hfits hjobs
    rw [hs.late_of_completing hop hfits hjobs] at hlate
    cases hlate
  rcases exec_status F thread op s.data collection with hsame | hsets
  · rw [hsame, hstatus]
  generalize (exec F thread op s.data).1.status collection = after at hsets ⊢
  cases hsets with
  | enqueueJob | setRunning | takeAt => rfl
  | setStatus => exact absurd (Forest.plain_of_statusInRun (hs.of_setStatus hop).1) hkind
  | run => exact absurd rfl hne
  | update | restore | countDown => exact absurd rfl (hcompleting fun _ => Iff.rfl)
  | checkLast hone =>
      rw [hs.late_of_counter hone] at hlate
      cases hlate

theorem runThread (h : s.HeldBack F collection) (hs : s.Sound F) (hr : s.Reporting F)
    (hkind : F.kind collection ≠ .plain) (hok : HoldsBack F collection s (.run thread))
    (hstep : s.runThread F thread = some next) : next.HeldBack F collection := by
  rcases h with ⟨hstatus, hlate⟩ | hstalled
  swap
  · exact .inr (hstalled.runThread hs hok hstep)
  obtain ⟨op, rest, hstack, hfree, rfl⟩ := State.runThread_eq_some hstep
  have hop : op ∈ s.stack thread := by
    rw [hstack]
    exact List.mem_cons_self
  by_cases heq : op = .run collection
  · subst heq
    have hplace : (exec F thread (.run collection) s.data).1.place = s.data.place := by
      simp only [exec, if_neg hkind]
      rfl
    have habort : (exec F thread (.run collection) s.data).1.shouldAbort = s.data.shouldAbort := by
      simp only [exec, if_neg hkind]
      rfl
    refine .inr ⟨⟨thread, .inl ?_⟩, fun element hparent => ?_⟩
    · simp [exec, hkind]
    · have hnone := hs.books.not_opened hlate
      dsimp only
      rw [hplace, habort]
      refine ⟨?_, (hs.books.fresh collection element hparent).mpr hnone⟩
      refine (hok.2 (by simp [State.nextOp, hstack])).resolve_left fun hnil => ?_
      have hmem := (F.mem_elements _ _).mpr hparent
      rw [hnil] at hmem
      cases hmem
  · refine .inl ⟨exec_isFinished hs hstack hfree hkind hlate hstatus heq, ?_⟩
    rcases hs.exec_place hstack hfree collection with hsame | hmoves
    · dsimp only
      rw [hsame, hlate]
    · dsimp only
      generalize s.data.place collection = before at hmoves hlate
      generalize (exec F thread op s.data).1.place collection = after at hmoves ⊢
      cases hmoves with
      | closing =>
          rw [hr.self thread collection (.inl hop)] at hstatus
          cases hstatus
      | ending hplain => exact absurd hplain hkind
      | ended | reporting | waiting | reported | endingSelf | endingElement => cases hlate
      | _ => rfl

theorem step (h : s.HeldBack F collection) (hs : s.Sound F) (hr : s.Reporting F)
    (hkind : F.kind collection ≠ .plain) (hok : HoldsBack F collection s act)
    (hstep : step F s act = some next) : next.HeldBack F collection := by
  rcases h with hunfinished | hstalled
  swap
  · exact .inr (hstalled.step hs hok hstep)
  refine step_rule (.inl hunfinished) ?_ ?_ ?_ hstep
  · rintro thread rfl hran
    exact runThread (.inl hunfinished) hs hr hkind hok hran
  · intro caller jobs _ _
    refine .inl ⟨hunfinished.1, ?_⟩
    simp only [State.takeUp]
    split
    · rfl
    · exact hunfinished.2
  · intro before caller hbefore hbegin
    have hmem := State.mem_of_beginCall hbegin
    obtain ⟨-, rfl⟩ := State.beginCall_eq_some hbegin
    rcases hbefore with hbefore | hbefore
    · exact .inl hbefore
    · obtain ⟨thread, hop⟩ := hbefore.completes
      exact .inr ⟨⟨thread, hop.imp (hmem thread _) (hmem thread _)⟩, hbefore.aborted⟩

end State.HeldBack

variable {start : Weaver.Start J P σ}

theorem runs_heldBack (hkind : F.kind collection ≠ .plain)
    (run : Runs F (HoldsBack F collection) start s) : s.HeldBack F collection := by
  induction run with
  | refl => exact .inl ⟨rfl, rfl⟩
  | tail run hok hstep ih => exact ih.step (runs_sound run) (runs_reporting run) hkind hok hstep

/-- What is stalled stays so in a run that holds back. -/
theorem runs_stalled (run : Runs F (HoldsBack F collection) start s) {last : State J P T σ}
    (hstalled : s.Stalled F collection)
    (hlater : Library.RunWhere (Collection.step F) (HoldsBack F collection) s last) :
    last.Stalled F collection := by
  induction hlater with
  | refl => exact hstalled
  | tail hmid hok hstep ih => exact ih.step (runs_sound (run.trans hmid)) hok hstep

/-- The completion of its own job sets a collection back to running. -/
theorem not_finished_of_processes {ok : State J P T σ → Act J T → Prop}
    (run : Runs F ok start s) (hstep : step F s act = some next)
    (hnext : s.nextOp act = some (.processCompletedElement collection collection)) :
    ¬ FinishedMeansFinished F (fun _ _ => True) collection s := by
  intro hfinished
  have hs := runs_sound run
  cases act with
  | run thread =>
      obtain ⟨op, rest, hstack, -, rfl⟩ := State.runThread_eq_some hstep
      obtain rfl : op = .processCompletedElement collection collection := by
        simpa [State.nextOp, hstack] using hnext
      have hop : .processCompletedElement collection collection ∈ s.stack thread := by
        rw [hstack]
        exact List.mem_cons_self
      have hsuccess := (runs_reporting run).self thread collection (.inr hop)
      have hplace : s.data.place collection = .held .closing thread :=
        hs.place_eq hop (by simp [Op.jobs])
      have hlater := (hfinished (by rw [hplace]; rfl) (by rw [hsuccess]; rfl)).2 _
        (.single trivial hstep)
      have hrunning : (exec F thread (.processCompletedElement collection collection)
          s.data).1.status collection = .running := by
        simp only [exec]
        split
        · split <;> simp [Data.setStatus, Data.unlock, Data.updatedStatus, hsuccess]
        · simp [Data.setStatus, Data.updatedStatus, hsuccess]
      rw [hrunning] at hlater
      cases hlater
  | _ => cases hnext

/-- When the own job of a collection has run, the elements wait to be enqueued. -/
theorem not_finished_of_runs {ok : State J P T σ → Act J T → Prop}
    (run : Runs F ok start s) (hstep : step F s act = some next)
    (hnext : s.nextOp act = some (.run collection)) (hsome : F.elements collection ≠ [])
    (habort : s.data.shouldAbort collection = false) :
    ¬ FinishedMeansFinished F (fun _ _ => True) collection next := by
  intro hfinished
  have hs := runs_sound run
  cases act with
  | run thread =>
      obtain ⟨op, rest, hstack, -, rfl⟩ := State.runThread_eq_some hstep
      obtain rfl : op = .run collection := by simpa [State.nextOp, hstack] using hnext
      obtain ⟨element, helement⟩ := List.exists_mem_of_ne_nil _ hsome
      have hparent := (F.mem_elements _ _).mp helement
      have hkind : F.kind collection ≠ .plain := Books.Lawful.kind_ne_plain hparent
      have hop : .run collection ∈ s.stack thread := by
        rw [hstack]
        exact List.mem_cons_self
      have hplace : s.data.place collection = .held .executing thread :=
        hs.place_eq hop List.mem_cons_self
      have hnone := hs.books.not_opened (show (s.data.place collection).isLate = false by
        rw [hplace]
        rfl)
      have hfresh := (hs.books.fresh collection element hparent).mpr hnone
      have hafter : (exec F thread (.run collection) s.data).1 =
          s.data.setStatus collection .success := by
        simp only [exec, if_neg hkind, Forest.runStatus]
        rfl
      have hnot := ((hfinished (by dsimp only; rw [hafter]; exact hplace ▸ rfl)
        (by dsimp only; rw [hafter]; simp [Data.setStatus, Status.isFinished])).1
          element hparent).1
      dsimp only at hnot
      rw [hafter] at hnot
      exact hnot (.inl ⟨hfresh, habort⟩)
  | _ => cases hnext

/-- **A collection keeps to `isFinished` exactly in the runs that stop short of its completion.**
In a run that holds back it does in every state, and a step that does not hold back breaks it,
before or after the step. -/
theorem finished_means_finished (hkind : F.kind collection ≠ .plain) :
    (∀ s : State J P T σ, Runs F (HoldsBack F collection) start s →
      FinishedMeansFinished F (HoldsBack F collection) collection s) ∧
    ∀ (s next : State J P T σ) (act : Act J T), Runs F (fun _ _ => True) start s →
      step F s act = some next → ¬ HoldsBack F collection s act →
      ¬ FinishedMeansFinished F (fun _ _ => True) collection s ∨
        ¬ FinishedMeansFinished F (fun _ _ => True) collection next := by
  constructor
  · intro s run _ hfinished
    have hstalled : s.Stalled F collection := by
      refine (runs_heldBack hkind run).resolve_left fun hunfinished => ?_
      rw [hunfinished.1] at hfinished
      cases hfinished
    exact ⟨hstalled.noneOutstanding (runs_sound run), fun last hlater =>
      (runs_stalled run hstalled hlater).isFinished (runs_reporting (run.trans hlater))⟩
  · intro s next act run hstep hnot
    by_cases hprocess : s.nextOp act = some (.processCompletedElement collection collection)
    · exact .inl (not_finished_of_processes run hstep hprocess)
    · simp only [HoldsBack, ne_eq, hprocess, not_false_eq_true, true_and, Classical.not_imp,
        not_or, Bool.not_eq_true] at hnot
      exact .inr (not_finished_of_runs run hstep hnot.1 hnot.2.1 hnot.2.2)

omit [DecidableEq P] [DecidableEq T] in
/-- The elements of a collection whose end has begun have been counted. -/
theorem State.Sound.noneOutstanding_of_over (hs : s.Sound F)
    (hover : (s.data.place collection).isOver = true) : s.data.NoneOutstanding F collection := by
  intro element hparent
  have hcounted : (s.data.place element).isCounted = true := by
    by_contra hnot
    have hopen := hs.books.not_over hparent (by simpa [Data.books] using hnot)
    simp only [Data.books, hover] at hopen
    cases hopen
  refine ⟨?_, ?_, ?_⟩
  · rintro (⟨hfresh, -⟩ | ⟨thread, hpending⟩)
    · rw [hfresh] at hcounted
      cases hcounted
    · rw [hpending] at hcounted
      cases hcounted
  · intro hlisted
    rcases hs.listed element hlisted with hqueued | ⟨thread, hop⟩
    · rw [hqueued] at hcounted
      cases hcounted
    · rcases (hs.of_takeAt hop).2 with hplace | hplace <;>
      · rw [hplace] at hcounted
        cases hcounted
  · cases hplace : s.data.place element with
    | reported | discounted => rfl
    | _ =>
        rw [hplace] at hcounted
        cases hcounted

theorem State.Sound.step_isOver {job : J} (hs : s.Sound F)
    (hstep : Collection.step F s act = some next) (hover : (s.data.place job).isOver = true) :
    (next.data.place job).isOver = true := by
  refine step_rule (I := fun s : State J P T σ => (s.data.place job).isOver = true) hover
    ?_ ?_ ?_ hstep
  · rintro thread rfl hran
    obtain ⟨op, rest, hstack, hfree, rfl⟩ := State.runThread_eq_some hran
    rcases hs.exec_place hstack hfree job with hsame | hmoves
    · exact hsame ▸ hover
    · exact hmoves.isOver hover
  · intro caller jobs _ hjobs
    have hnot : job ∉ jobs := by
      intro hmem
      rw [(hjobs job hmem).2] at hover
      cases hover
    simpa only [State.takeUp, if_neg hnot] using hover
  · intro before caller hbefore hbegin
    obtain ⟨-, rfl⟩ := State.beginCall_eq_some hbegin
    exact hbefore

/-- Once the end of a collection has begun, finished means finished: that much the code keeps. -/
theorem finished_of_over {ok : State J P T σ → Act J T → Prop} (run : Runs F ok start s)
    (hover : (s.data.place collection).isOver = true) :
    (s.data.status collection).isFinished = true ∧ FinishedMeansFinished F ok collection s := by
  refine ⟨(runs_finishing run).status collection hover, fun _ _ =>
    ⟨(runs_sound run).noneOutstanding_of_over hover, fun last hlater => ?_⟩⟩
  have hstays : (last.data.place collection).isOver = true := by
    induction hlater with
    | refl => exact hover
    | tail hmid _ hstep ih => exact (runs_sound (run.trans hmid)).step_isOver hstep ih
  exact (runs_finishing (run.trans hlater)).status collection hstays

end Runs

/-- The collection is executed with an element that waits to be enqueued. -/
theorem not_finished_means_finished : ¬ ∀ s : State (Fin 2) Empty Unit Unit,
    Runs pair (fun _ _ => True) (.plain ()) s →
      FinishedMeansFinished pair (fun _ _ => True) 0 s := by
  intro hall
  obtain ⟨s, run, ⟨hnext, habort, hsome⟩, -⟩ :=
    exists_runs pair (fun _ _ => True) (.plain ())
      (fun s : State (Fin 2) Empty Unit Unit => s.nextOp (.run (.worker 0)) = some (.run 0) ∧
        s.data.shouldAbort 0 = false ∧ (step pair s (.run (.worker 0))).isSome = true)
      (List.flatten [[.enqueue () [0]], List.replicate 3 (.run (.caller ())),
        List.replicate 6 (.run (.worker 0))]) (by decide +kernel)
  obtain ⟨next, hstep⟩ := Option.isSome_iff_exists.mp hsome
  exact not_finished_of_runs run hstep hnext (by decide) habort
    (hall next (run.tail trivial hstep))

/-- The collection is asked to abort before it is executed. -/
theorem finished_means_finished_aborted : ∃ s : State (Fin 2) Empty Unit Unit,
    (s.data.place 0).isAssigned = true ∧ (s.data.status 0).isFinished = true ∧
      FinishedMeansFinished pair (HoldsBack pair 0) 0 s := by
  obtain ⟨s, run, ⟨hassigned, hfinished⟩, -⟩ :=
    exists_runs pair (HoldsBack pair 0) (.plain ())
      (fun s : State (Fin 2) Empty Unit Unit =>
        (s.data.place 0).isAssigned = true ∧ (s.data.status 0).isFinished = true)
      (List.flatten [[.enqueue () [0]], List.replicate 3 (.run (.caller ())),
        List.replicate 2 (.run (.worker 0)), [.requestAbort () 0],
        List.replicate 12 (.run (.caller ())), List.replicate 5 (.run (.worker 0))])
      (by decide +kernel)
  exact ⟨s, hassigned, hfinished, (finished_means_finished (by decide)).1 s run⟩

end ThreadWeaver.Collection
