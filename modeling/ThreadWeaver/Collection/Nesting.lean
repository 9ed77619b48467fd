import ThreadWeaver.Collection.Evaluation

/-!
# The log of a nest is nested as the nest is

What is executed below a job happens while the job is executed: it begins after the job has begun,
and has ended before the job ends.  This holds in every run, also where `stop` and `requestAbort` are
called.

Nothing below an element of a Sequence begins before the elements ahead of it have ended with
success, and everything that has begun below these has ended.  This is shown of runs that nobody
disturbs.
-/

namespace ThreadWeaver.Collection

open Relation (ReflTransGen)
open Library (Ordered)

variable {J P T σ : Type*}

/-- The job has begun and has not ended. -/
def Running (log : List (Event J T)) (job : J) : Prop :=
  .started job ∈ log ∧ ∀ status, .ended job status ∉ log

/-- If the job has begun it has ended. -/
def NotRunning (log : List (Event J T)) (job : J) : Prop :=
  .started job ∈ log → ∃ status, .ended job status ∈ log

/-- A job begins once, below jobs that are running, and ends once, when nothing below it is
running. -/
def Nested (F : Forest J P σ) (before : List (Event J T)) : Event J T → Prop
  | .started job => .started job ∉ before ∧
      ∀ outer, F.Under outer job → outer ≠ job → Running before outer
  | .ended job _ => Running before job ∧
      ∀ inner, F.Under job inner → inner ≠ job → NotRunning before inner
  | _ => True

/-- What begins below an element of a Sequence begins after everything below the elements ahead of
it has ended, and these with success. -/
def InSeries (F : Forest J P σ) (before : List (Event J T)) : Event J T → Prop
  | .started job => ∀ collection ahead element between later behind,
      F.kind collection = .sequence →
      F.elements collection = ahead ++ element :: (between ++ later :: behind) →
      F.Under later job →
      .ended element .success ∈ before ∧ ∀ inner, F.Under element inner → NotRunning before inner
  | _ => True

section State

variable [DecidableEq J] {F : Forest J P σ} {s : State J P T σ} {outer inner element job : J}

theorem State.Sound.started_of_under (hs : s.Sound F) (hunder : F.Under outer job)
    (hne : outer ≠ job) (hassigned : (s.data.place job).isAssigned = true) :
    (s.data.place outer).isStarted = true := by
  rcases ReflTransGen.cases_head hunder with heq | ⟨element, hparent, hinner⟩
  · exact absurd heq hne
  · have habove := hs.assigned_of_under hinner hassigned
    have hfresh : s.data.books.place element ≠ .fresh := by
      intro hfresh
      rw [show s.data.place element = .fresh from hfresh] at habove
      cases habove
    exact Place.isStarted_of_isLate (hs.books.late outer (hs.books.opened_of_ne_fresh hparent hfresh))

theorem State.Sound.ended_of_over (hs : s.Sound F) (hunder : F.Under outer job) (hne : job ≠ outer)
    (hover : (s.data.place outer).isOver = true)
    (hassigned : (s.data.place job).isAssigned = true) : (s.data.place job).isEnded = true := by
  rcases ReflTransGen.cases_head hunder with heq | ⟨element, hparent, hinner⟩
  · exact absurd heq.symm hne
  · have helement := hs.assigned_of_under hinner hassigned
    have hcounted : (s.data.place element).isCounted = true := by
      by_contra hnot
      have hopen := hs.books.not_over hparent (Bool.eq_false_of_not_eq_true hnot)
      rw [show (s.data.books.place outer).isOver = true from hover] at hopen
      cases hopen
    refine hs.ended_of_under hinner ?_ hassigned
    cases hplace : s.data.place element with
    | reported => rfl
    | discounted =>
        rw [hplace] at helement
        cases helement
    | _ =>
        rw [hplace] at hcounted
        cases hcounted

end State

section Runs

variable [DecidableEq J] [DecidableEq P] [DecidableEq T] {F : Forest J P σ}
  {start : Weaver.Start J P σ} {s : State J P T σ} {ok : State J P T σ → Act J T → Prop} {job : J}
  {thread : Thread T} {op : Op J} {rest : List (Op J)} {event : Event J T}

/-- **History rule.**  What every event satisfies when it is recorded holds of the history. -/
theorem runs_ordered {Q : List (Event J T) → Event J T → Prop} (run : Runs F ok start s)
    (hrecords : ∀ mid thread op rest event, Runs F ok start mid →
      mid.stack thread = op :: rest → Records F mid.data thread op event →
      Q mid.data.log event) : Ordered Q s.data.log := by
  induction run with
  | refl => exact Ordered.nil
  | @tail mid last act run _ hstep ih =>
      refine step_rule (I := fun next => Ordered Q next.data.log) ih ?_ (fun _ _ _ _ => ih) ?_ hstep
      · intro thread _ hran
        obtain ⟨op, rest, hstack, -, rfl⟩ := State.runThread_eq_some hran
        dsimp only
        rcases exec_records F thread op mid.data with hsame | ⟨event, hevent, hlog⟩
        · rw [hsame]
          exact ih
        · rw [hlog]
          exact ih.concat (hrecords mid thread op rest event run hstack hevent)
      · intro before caller hbefore hbegin
        obtain ⟨-, rfl⟩ := State.beginCall_eq_some hbegin
        exact hbefore

/-- The jobs that have begun are those whose beginning is recorded. -/
theorem runs_started (run : Runs F ok start s) :
    .started job ∈ s.data.log ↔ (s.data.place job).isStarted = true := by
  refine ⟨(runs_recorded run).started job, ?_⟩
  induction run with
  | refl => exact fun h => by cases h
  | @tail mid last act run _ hstep ih =>
      refine step_rule (I := fun next => (next.data.place job).isStarted = true →
        .started job ∈ next.data.log) ih ?_ ?_ ?_ hstep
      · intro thread _ hran hstarted
        obtain ⟨op, rest, hstack, hfree, rfl⟩ := State.runThread_eq_some hran
        dsimp only at hstarted ⊢
        rw [exec_log]
        by_cases hop : op = .execute job
        · subst hop
          exact List.mem_append_right _ (List.mem_singleton.mpr rfl)
        · rw [(runs_sound run).exec_isStarted hstack hfree hop] at hstarted
          exact List.mem_append_left _ (ih hstarted)
      · intro caller jobs _ _ hstarted
        refine ih ?_
        simp only [State.takeUp] at hstarted
        split at hstarted
        · cases hstarted
        · exact hstarted
      · intro before caller hbefore hbegin
        obtain ⟨-, rfl⟩ := State.beginCall_eq_some hbegin
        exact hbefore

theorem runs_ended_iff (run : Runs F ok start s) :
    (∃ status, .ended job status ∈ s.data.log) ↔ (s.data.place job).isEnded = true :=
  (runs_recorded run).isEnded_iff.symm

theorem runs_running_iff (run : Runs F ok start s) : Running s.data.log job ↔
    (s.data.place job).isStarted = true ∧ (s.data.place job).isEnded = false := by
  rw [Running, runs_started run, ← not_exists, runs_ended_iff run, Bool.not_eq_true]

theorem runs_notRunning_iff (run : Runs F ok start s) : NotRunning s.data.log job ↔
    ((s.data.place job).isStarted = true → (s.data.place job).isEnded = true) := by
  rw [NotRunning, runs_started run, runs_ended_iff run]

theorem nested_of_records (run : Runs F ok start s) (hstack : s.stack thread = op :: rest)
    (hrecords : Records F s.data thread op event) : Nested F s.data.log event := by
  have hs := runs_sound run
  have hop : op ∈ s.stack thread := by
    rw [hstack]
    exact List.mem_cons_self
  cases hrecords with
  | @started job =>
      have hplace : s.data.place job = .held .assigned thread :=
        hs.place_eq hop List.mem_cons_self
      have hassigned : (s.data.place job).isAssigned = true := by
        rw [hplace]
        rfl
      refine ⟨fun hmem => ?_, fun outer hunder hne => (runs_running_iff run).mpr ?_⟩
      · rw [runs_started run, hplace] at hmem
        cases hmem
      · refine ⟨hs.started_of_under hunder hne hassigned, Bool.eq_false_of_not_eq_true fun hended => ?_⟩
        have hinner := hs.ended_of_under hunder hended hassigned
        rw [hplace] at hinner
        cases hinner
  | @ended job =>
      have hplace : s.data.place job = .held .ending thread :=
        hs.place_eq hop List.mem_cons_self
      refine ⟨(runs_running_iff run).mpr ?_, fun inner hunder hne => ?_⟩
      · rw [hplace]
        exact ⟨rfl, rfl⟩
      · refine (runs_notRunning_iff run).mpr fun hstarted => ?_
        exact hs.ended_of_over hunder hne (by rw [hplace]; rfl)
          (Place.isAssigned_of_isStarted hstarted)
  | _ => trivial

/-- **What is executed below a job happens while the job is executed**, in every run: a job begins
once, when the collections around it are running, and ends once, when nothing below it is
running. -/
theorem executed_within (run : Runs F ok start s) : Ordered (Nested F) s.data.log :=
  runs_ordered run fun _ _ _ _ _ run hstack hrecords => nested_of_records run hstack hrecords

theorem inSeries_of_records (run : Runs F Undisturbed start s)
    (hstack : s.stack thread = op :: rest) (hrecords : Records F s.data thread op event) :
    InSeries F s.data.log event := by
  have hs := runs_sound run
  cases hrecords with
  | @started job =>
      intro collection ahead element between later behind hkind hsplit hunder
      have hassigned : (s.data.place job).isAssigned = true := by
        rw [hs.place_eq (hstack ▸ List.mem_cons_self) List.mem_cons_self]
        rfl
      have hparent : ∀ {other}, other = element ∨ other = later → F.parent other = some collection := by
        intro other hother
        refine (F.mem_elements _ _).mp ?_
        rcases hother with rfl | rfl <;> simp [hsplit]
      have hturn : F.turn collection element < F.turn collection later := by
        have hpairs := F.elements_pairwise collection
        rw [hsplit, List.pairwise_append, List.pairwise_cons] at hpairs
        exact hpairs.2.1.1 later (by simp)
      have hsucceeded := (runs_halting run hkind).before element later (hparent (.inl rfl))
        (hparent (.inr rfl)) hturn (hs.assigned_of_under hunder hassigned)
      refine ⟨(runs_ended run).mpr hsucceeded, fun inner hinner => ?_⟩
      refine (runs_notRunning_iff run).mpr fun hstarted => ?_
      exact hs.ended_of_under hinner hsucceeded.1 (Place.isAssigned_of_isStarted hstarted)
  | _ => trivial

/-- **A Sequence is executed in series**, with everything below its elements, in runs that nobody
disturbs. -/
theorem executed_in_series (run : Runs F Undisturbed start s) :
    Ordered (InSeries F) s.data.log :=
  runs_ordered run fun _ _ _ _ _ run hstack hrecords => inSeries_of_records run hstack hrecords

end Runs

/-- The Collection is stopped while its element waits. -/
theorem executed_within_pair : ∃ s : State (Fin 2) Empty Unit Unit,
    Runs pair (fun _ _ => True) (.plain ()) s ∧ .dequeued 1 ∈ s.data.log ∧
      Ordered (Nested pair) s.data.log := by
  obtain ⟨s, run, hdequeued, -⟩ :=
    exists_runs pair (fun _ _ => True) (.plain ())
      (fun s : State (Fin 2) Empty Unit Unit => .dequeued 1 ∈ s.data.log)
      (List.flatten [[.enqueue () [0]], List.replicate 3 (.run (.caller ())),
        List.replicate 13 (.run (.worker 0)), [.stop () 0],
        List.replicate 10 (.run (.caller ()))]) (by decide +kernel)
  exact ⟨s, run, hdequeued, executed_within run⟩

/-- The second leaf of the inner Sequence begins after the first one. -/
theorem executed_in_series_failing : ∃ s : State (Fin 6) Empty Unit Unit,
    Runs nestedFailing Undisturbed (.plain ()) s ∧ .started 3 ∈ s.data.log ∧
      Ordered (InSeries nestedFailing) s.data.log := by
  obtain ⟨s, run, hstarted, -⟩ :=
    exists_runs nestedFailing Undisturbed (.plain ())
      (fun s : State (Fin 6) Empty Unit Unit => .started 3 ∈ s.data.log)
      (List.flatten [[.enqueue () [0]], List.replicate 3 (.run (.caller ())),
        List.replicate 69 (.run (.worker 0))]) (by decide +kernel)
  exact ⟨s, run, hstarted, executed_in_series run⟩

end ThreadWeaver.Collection
