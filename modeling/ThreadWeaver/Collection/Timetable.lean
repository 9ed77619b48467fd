import ThreadWeaver.Collection.Dependencies
import ThreadWeaver.Collection.Evaluation
import ThreadWeaver.Collection.Fair

/-!
# Timetables

Dependencies between nested jobs hold up the queue for ever when they contradict the nesting: a
collection that depends on its own element, an element of a Sequence that depends on a later one,
two collections whose elements depend on each other's ends.  None of this is a cycle of the
dependencies alone.

A timetable gives every job a time to begin and a time to end such that collections begin before
their elements and end after them, elements of Sequences follow each other and jobs follow their
dependees.  If there is one, the weaver executes the jobs: when no worker is active, consider the job
in the queue that is to begin first.  It is not blocked, or an element ahead of it would be in the
queue; and it does not depend on anything that has not ended, or something below that would be in the
queue.  There is one if the jobs can be executed at all, by however many workers: the positions of
the events in a run in which everything succeeds.
-/

namespace ThreadWeaver

theorem QueuePolicies.accepts_of_canRun {J P σ : Type*} {q : QueuePolicies J P σ} {I : σ → Prop}
    {job : J} (hcanRun : ∀ policy state, I state → I (q.canRun policy job state).2)
    {policies : List P} {state : σ} (h : I state)
    (hall : ∀ policy ∈ policies, ∀ state, I state → (q.canRun policy job state).1 = true) :
    q.Accepts policies job state := by
  rw [accepts_iff]
  induction policies generalizing state with
  | nil => rfl
  | cons policy rest ih =>
      simp only [acquire, if_pos (hall policy List.mem_cons_self state h)]
      exact ih (hcanRun policy state h) fun other hmem => hall other (List.mem_cons_of_mem _ hmem)

namespace Collection

open Filter
open Library (FairSchedule Ordered RunWhere)

variable {J P T σ ι : Type*} [LinearOrder ι]

/-- When the jobs are to begin and to end. -/
structure Forest.Timetable (F : Forest J P σ) (depends : J → J → Prop) (begins ends : J → ι) :
    Prop where
  lasts : ∀ job, begins job < ends job
  within : ∀ collection element, F.parent element = some collection →
    begins collection < begins element ∧ ends element < ends collection
  series : ∀ collection, F.kind collection = .sequence →
    (F.elements collection).Pairwise fun earlier later => ends earlier < begins later
  follows : ∀ dependent dependee, depends dependent dependee → ends dependee < begins dependent

namespace Forest.Timetable

variable {F : Forest J P σ} {depends : J → J → Prop} {begins ends : J → ι}
  {collection outer job earlier later : J}

theorem of_under (h : F.Timetable depends begins ends) (hunder : F.Under outer job) :
    begins outer ≤ begins job ∧ ends job ≤ ends outer := by
  induction hunder with
  | refl => exact ⟨le_refl _, le_refl _⟩
  | tail _ hparent ih =>
      obtain ⟨hbegins, hends⟩ := h.within _ _ hparent
      exact ⟨ih.1.trans hbegins.le, hends.le.trans ih.2⟩

theorem of_turn [DecidableEq J] (h : F.Timetable depends begins ends)
    (hkind : F.kind collection = .sequence) (hearlier : F.parent earlier = some collection)
    (hlater : F.parent later = some collection)
    (hturn : F.turn collection earlier < F.turn collection later) :
    ends earlier < begins later := by
  rw [F.turn_element hearlier, F.turn_element hlater] at hturn
  have hmem := (F.mem_elements _ _).mpr hearlier
  have hmem' := (F.mem_elements _ _).mpr hlater
  have hpairs := List.pairwise_iff_getElem.mp (h.series collection hkind) _ _
    (List.idxOf_lt_length_of_mem hmem) (List.idxOf_lt_length_of_mem hmem') (by omega)
  simpa using hpairs

end Forest.Timetable

/-! ## Jobs that succeed -/

/-- No job of the program fails. -/
def Forest.Succeeds (F : Forest J P σ) : Prop :=
  ∀ job, F.kind job = .plain → F.runStatus job = .success

section Succeeds

variable [DecidableEq J] [DecidableEq P] [DecidableEq T] {F : Forest J P σ}
  {start : Weaver.Start J P σ} {s : State J P T σ} {job root : J}

theorem runs_success (run : Runs F Undisturbed start s) (hsucceeds : F.Succeeds)
    (hended : (s.data.place job).isEnded = true) : s.data.status job = .success := by
  induction hheight : F.height job using Nat.strong_induction_on generalizing job with
  | _ height ih =>
      have hover := Place.isOver_of_isEnded hended
      have hinner : ∀ element, F.parent element = some job →
          (s.data.place element).isEnded = true → s.data.status element = .success := by
        intro element hparent hplace
        have hlt := F.height_lt element job hparent
        exact ih _ (by omega) hplace rfl
      cases hkind : F.kind job with
      | plain => exact (runs_runStatus run hkind hover).trans (hsucceeds job hkind)
      | collection =>
          rcases (runs_concluding run hkind).isOver hover with
            ⟨-, hstatus⟩ | ⟨element, hmem, hplace, hstatus⟩
          · exact hstatus
          · exact hstatus.trans (hinner element ((F.mem_elements _ _).mp hmem) hplace)
      | sequence =>
          rcases runs_sequence run hkind hended with
            ⟨-, hstatus⟩ | ⟨before, element, after, hsplit, -, hshort, -, -⟩
          · exact hstatus
          · have hparent : F.parent element = some job :=
              (F.mem_elements _ _).mp (by simp [hsplit])
            exact absurd (hinner element hparent hshort.1) hshort.2

theorem runs_not_removed (run : Runs F Undisturbed start s) (hsucceeds : F.Succeeds) :
    (s.data.place job).isRemoved = false := by
  refine Bool.eq_false_of_not_eq_true fun hremoved => ?_
  have ho := runs_orderly run
  obtain ⟨before, after, hlog⟩ := List.append_of_mem (ho.dequeued job hremoved)
  obtain ⟨collection, element, status, -, -, -, hended, hshort⟩ :=
    ho.stopped before _ after hlog job rfl
  have hmem : .ended element status ∈ s.data.log := hlog ▸ List.mem_append_left _ hended
  obtain ⟨hplace, hstatus⟩ := (runs_ended run).mp hmem
  exact hshort (hstatus.symm.trans (runs_success run hsucceeds hplace))

end Succeeds

/-! ## The job that is to begin first -/

section First

variable [DecidableEq J] [DecidableEq P] [DecidableEq T] {F : Forest J P σ}
  {start : Weaver.Start J P σ} {s : State J P T σ} {depends : J → J → Prop} {begins ends : J → ι}
  {collection root job : J}

/-- Something in the queue is to begin before the end of a job that has been enqueued and has not
ended. -/
theorem Forest.Timetable.exists_queued (h : F.Timetable depends begins ends)
    (run : Runs F Undisturbed start s) (hidle : s.data.active = 0) (hsucceeds : F.Succeeds)
    (hfresh : s.data.place job ≠ .fresh) (hpending : ∀ thread, s.data.place job ≠ .held .pending thread)
    (hended : (s.data.place job).isEnded = false) :
    ∃ queued, s.data.place queued = .queued ∧ begins queued < ends job := by
  have hremoved : (s.data.place job).isRemoved = false := runs_not_removed run hsucceeds
  cases hplace : s.data.place job with
  | fresh => exact absurd hplace hfresh
  | queued => exact ⟨job, hplace, h.lasts job⟩
  | waiting =>
      obtain ⟨ready, hunder, hready⟩ := runs_isReady_under run hidle hplace
      exact ⟨ready, hready.1, (h.lasts ready).trans_le (h.of_under hunder).2⟩
  | held stage thread =>
      obtain rfl := ((runs_staffed run).held_of_idle (runs_sound run) hidle hplace).1
      exact absurd hplace (hpending thread)
  | reported =>
      rw [hplace] at hended
      cases hended
  | discounted | lost =>
      rw [hplace] at hremoved
      cases hremoved

/-- What is below a job that has been enqueued is in the queue, has been, or waits for something
that is to begin earlier. -/
theorem Forest.Timetable.exists_queued_under (h : F.Timetable depends begins ends)
    (run : Runs F Undisturbed start s) (hidle : s.data.active = 0) (hsucceeds : F.Succeeds)
    (hroot : .enqueued root ∈ s.data.log) (hunder : F.Under root job) :
    (s.data.place job = .fresh →
        ∃ queued, s.data.place queued = .queued ∧ begins queued < begins job) ∧
      ∀ thread, s.data.place job ≠ .held .pending thread := by
  have hc := runs_calm run
  induction hunder with
  | refl =>
      obtain ⟨hfresh, hpending⟩ := hc.orderly.enqueued root hroot
      exact ⟨fun h => absurd h hfresh, hpending⟩
  | @tail collection job _ hparent ih =>
      obtain ⟨hearlier, hpending⟩ := ih
      refine ⟨fun hfresh => ?_, fun thread => hc.not_held hidle hparent⟩
      have hnone : s.data.opened collection = false := (hc.sound.books.fresh _ _ hparent).mp hfresh
      have hbegins := (h.within collection job hparent).1
      have hnotLate : (s.data.place collection).isLate = false := by
        refine Bool.eq_false_of_not_eq_true fun hlate => ?_
        rw [hc.opened collection (Books.Lawful.kind_ne_plain hparent) hlate] at hnone
        cases hnone
      have hremoved : (s.data.place collection).isRemoved = false := runs_not_removed run hsucceeds
      cases hplace : s.data.place collection with
      | fresh =>
          obtain ⟨queued, hqueued, hlt⟩ := hearlier hplace
          exact ⟨queued, hqueued, hlt.trans hbegins⟩
      | queued => exact ⟨collection, hplace, hbegins⟩
      | held stage thread =>
          obtain rfl := (hc.staffed.held_of_idle hc.sound hidle hplace).1
          exact absurd hplace (hpending thread)
      | waiting | reported =>
          rw [hplace] at hnotLate
          cases hnotLate
      | discounted | lost =>
          rw [hplace] at hremoved
          cases hremoved

theorem Forest.Timetable.exists_before_end (h : F.Timetable depends begins ends)
    (run : Runs F Undisturbed start s) (hidle : s.data.active = 0) (hsucceeds : F.Succeeds)
    (hroot : .enqueued root ∈ s.data.log) (hunder : F.Under root job)
    (hended : (s.data.place job).isEnded = false) :
    ∃ queued, s.data.place queued = .queued ∧ begins queued < ends job := by
  obtain ⟨hearlier, hpending⟩ := h.exists_queued_under run hidle hsucceeds hroot hunder
  by_cases hfresh : s.data.place job = .fresh
  · obtain ⟨queued, hqueued, hlt⟩ := hearlier hfresh
    exact ⟨queued, hqueued, hlt.trans (h.lasts job)⟩
  · exact h.exists_queued run hidle hsucceeds hfresh hpending hended

/-- The job in the queue that is to begin first is ready. -/
theorem Forest.Timetable.isReady_first (h : F.Timetable depends begins ends)
    (run : Runs F Undisturbed start s) (hidle : s.data.active = 0) (hsucceeds : F.Succeeds)
    (hplace : s.data.place job = .queued)
    (hfirst : ∀ queued, s.data.place queued = .queued → begins job ≤ begins queued) :
    s.data.IsReady job := by
  refine ⟨hplace, fun hblocked => ?_⟩
  have hc := runs_calm run
  obtain ⟨collection, hparent, hkind, hwaiting⟩ := waiting_of_blocked run hidle hplace hblocked
  have hlater : s.data.completed collection < F.turn collection job := by
    by_contra hnot
    obtain ⟨thread, hremove⟩ :=
      (hc.blocking collection hkind).2.1.reached job hparent (not_lt.mp hnot) hblocked
    exact hc.notMem_of_idle hidle rfl (by simp) (by simp) hremove
  -- the element that has the turn is ahead of the job and has not ended
  obtain ⟨turned, hturned, hturn⟩ :=
    hc.exists_turn hidle hkind hwaiting hparent (by rw [hplace]; rfl)
  have hends := h.of_turn hkind hturned hparent (by omega)
  have hqueued : ∃ queued, s.data.place queued = .queued ∧ begins queued < ends turned := by
    rcases hc.place_of_turn hidle hkind hwaiting hturned hturn with hready | hwaits | hdiscounted
    · exact ⟨turned, hready.1, h.lasts turned⟩
    · refine h.exists_queued run hidle hsucceeds ?_ ?_ ?_ <;> simp [hwaits, Place.isEnded]
    · have hremoved : (s.data.place turned).isRemoved = false := runs_not_removed run hsucceeds
      rw [hdiscounted] at hremoved
      cases hremoved
  obtain ⟨queued, hqueued, hlt⟩ := hqueued
  exact absurd (hfirst queued hqueued) (not_le_of_gt (hlt.trans hends))

end First

/-! ## Runs are timetables -/

section Converse

variable [DecidableEq J]

/-- A collection is cleaned up after it has begun, after its elements have ended, and before it
ends. -/
def CleansUpBetween (F : Forest J P σ) (before : List (Event J T)) : Event J T → Prop
  | .started job => .cleanedUp job ∉ before
  | .ended job _ => (F.kind job ≠ .plain → .cleanedUp job ∈ before) ∧
      ∀ collection, F.parent job = some collection → .cleanedUp collection ∉ before
  | _ => True

/-- What frees the policies of a job that succeeds. -/
def Forest.freeing (F : Forest J P σ) (job : J) : Event J T :=
  if F.kind job = .plain then .ended job .success else .cleanedUp job

variable [DecidableEq P] [DecidableEq T] {F : Forest J P σ}
  {start : Weaver.Start J (Option P) (Dependencies J × σ)}
  {s : State J (Option P) T (Dependencies J × σ)} {thread : Thread T} {op : Op J}
  {rest : List (Op J)} {event : Event J T}

theorem cleansUpBetween_of_records
    (run : Runs F.addDependencyPolicy (NotReleasedEarly F.addDependencyPolicy) start s)
    (hstack : s.stack thread = op :: rest)
    (hrecords : Records F.addDependencyPolicy s.data thread op event) :
    CleansUpBetween F s.data.log event := by
  have hs := runs_sound run
  have hreleased := runs_released run
  have hop : op ∈ s.stack thread := by
    rw [hstack]
    exact List.mem_cons_self
  cases hrecords with
  | @started job =>
      intro hmem
      have hplace : s.data.place job = .held .assigned thread :=
        hs.place_eq hop List.mem_cons_self
      have hnone : s.data.opened job = false :=
        hs.books.not_opened (by simp [Data.books, hplace, Place.isLate])
      rw [((runs_depending run).cleaned job hmem).2] at hnone
      cases hnone
  | @ended job =>
      have hplace : s.data.place job = .held .ending thread :=
        hs.place_eq hop List.mem_cons_self
      refine ⟨fun hkind => hreleased.isOver job hkind ?_, fun collection hparent hmem => ?_⟩
      · show (s.data.place job).isOver = true
        rw [hplace]
        rfl
      · have hpast : (s.data.place job).isPast = true :=
          hreleased.past collection hmem job hparent
        rw [hplace] at hpast
        cases hpast
  | _ => trivial

/-- A program of which everything has succeeded does not fail. -/
theorem succeeds_of_ended (run : Runs F.addDependencyPolicy Undisturbed start s)
    (hdone : ∀ job, .ended job .success ∈ s.data.log) : F.Succeeds := by
  intro job hkind
  obtain ⟨hended, hstatus⟩ := (runs_ended run).mp (hdone job)
  exact (runs_runStatus run hkind (Place.isOver_of_isEnded hended)).symm.trans hstatus

/-- The positions of what has happened in a run in which everything succeeds. -/
theorem runs_timetable (run : Runs F.addDependencyPolicy Undisturbed start s)
    (hdone : ∀ job, .ended job .success ∈ s.data.log) :
    F.Timetable (Depends start) (fun job => s.data.log.idxOf (.started job))
      fun job => s.data.log.idxOf (F.freeing job) := by
  have hlate := runs_notReleasedEarly run
  have hcleans : Ordered (CleansUpBetween F) s.data.log :=
    runs_ordered hlate fun _ _ _ _ _ run => cleansUpBetween_of_records run
  have hnested : Ordered (Nested F.addDependencyPolicy) s.data.log :=
    runs_ordered run fun _ _ _ _ _ run => nested_of_records run
  have hstarted : ∀ job, .started job ∈ s.data.log := fun job =>
    (runs_started run).mpr (Place.isStarted_of_isEnded ((runs_ended run).mp (hdone job)).1)
  -- a collection is freed when it is cleaned up, which is before its end is recorded
  have hfreeing : ∀ job,
      s.data.log.idxOf (F.freeing job) ≤ s.data.log.idxOf (.ended job .success) := by
    intro job
    by_cases hkind : F.kind job = .plain
    · rw [Forest.freeing, if_pos hkind]
    · rw [Forest.freeing, if_neg hkind]
      exact (hcleans.idxOf_lt (hdone job) fun before hbefore => hbefore.1 hkind).le
  refine ⟨fun job => ?_, fun collection element hparent => ⟨?_, ?_⟩, fun collection hkind => ?_,
    fun dependent dependee hdepends => ?_⟩
  · by_cases hkind : F.kind job = .plain
    · rw [Forest.freeing, if_pos hkind]
      exact hnested.idxOf_lt (hdone job) fun before hbefore => hbefore.1.1
    · rw [Forest.freeing, if_neg hkind]
      exact hcleans.idxOf_lt_of_notMem (hstarted job) (by simp) fun before hbefore => hbefore
  · refine hnested.idxOf_lt (hstarted element) fun before hbefore => ?_
    exact (hbefore.2 collection (.single hparent) (F.ne_of_parent hparent).symm).1
  · refine (hfreeing element).trans_lt ?_
    rw [Forest.freeing, if_neg (Books.Lawful.kind_ne_plain hparent)]
    exact hcleans.idxOf_lt_of_notMem (hdone element) (by simp) fun before hbefore =>
      hbefore.2 collection hparent
  · have hseries : Ordered (InSeries F.addDependencyPolicy) s.data.log :=
      runs_ordered run fun _ _ _ _ _ run => inSeries_of_records run
    refine List.pairwise_iff_forall_sublist.mpr fun {earlier later} hsublist => ?_
    obtain ⟨left, right, hsplit, hleft, hright⟩ := List.cons_sublist_iff.mp hsublist
    obtain ⟨ahead, between, rfl⟩ := List.append_of_mem hleft
    obtain ⟨between', behind, rfl⟩ := List.append_of_mem (List.singleton_sublist.mp hright)
    have helements : F.elements collection =
        ahead ++ earlier :: ((between ++ between') ++ later :: behind) := by
      rw [hsplit]
      simp
    refine (hfreeing earlier).trans_lt (hseries.idxOf_lt (hstarted later) fun before hbefore => ?_)
    exact (hbefore collection ahead earlier _ later behind hkind helements .refl).1
  · have hafter : Ordered (AfterDependees F start) s.data.log :=
      runs_ordered hlate fun _ _ _ _ _ run => afterDependees_of_records run
    refine hafter.idxOf_lt (hstarted dependent) fun before hbefore => ?_
    have hgone := ((hbefore dependent dependee hdepends).1 .refl).1
    rw [Forest.freeing]
    split at hgone
    · rwa [if_pos ‹_›]
    · rwa [if_neg ‹_›]

end Converse

/-! ## Every job is done -/

/-- Everything below the jobs that have been enqueued has ended with success. -/
def AllSucceeded (F : Forest J P σ) (log : List (Event J T)) : Prop :=
  ∀ root job, F.parent root = none → .enqueued root ∈ log → F.Under root job →
    .ended job .success ∈ log

section Success

variable [DecidableEq J] [DecidableEq P] [DecidableEq T] {F : Forest J P σ}
  {start : Weaver.Start J P σ} {pool : Set ℕ} {states : ℕ → State J P T σ}
  {threads : ℕ → Thread T}

theorem log_subset
    (hschedule : FairSchedule (fun s thread => step F s (.run thread)) (crew pool) states threads)
    (i : ℕ) : (states 0).data.log ⊆ (states i).data.log := by
  refine hschedule.invariant (I := fun s => (states 0).data.log ⊆ s.data.log) (fun _ => id)
    (fun s thread next _ hsubset hstep event hmem => ?_) i
  obtain ⟨op, rest, -, -, rfl⟩ := State.runThread_eq_some hstep
  dsimp only
  rw [exec_log]
  exact List.mem_append_left _ (hsubset hmem)

/-- What is found whenever no worker is active is executed with success if nothing fails. -/
theorem drains_with_success [Fintype J] (hsucceeds : F.Succeeds) (hpool : pool.Nonempty)
    (run : Runs F Undisturbed start (states 0)) (hrest : (states 0).OthersRest pool)
    (hschedule : FairSchedule (fun s thread => step F s (.run thread)) (crew pool) states threads)
    (hfinds : ∀ i, Runs F Undisturbed start (states i) → (states i).Finds F start) :
    (∀ᶠ i in atTop, (states i).data.isIdleP = true ∧ AllSucceeded F (states i).data.log) ∧
      ∀ caller, ∀ᶠ i in atTop, (states i).stack (.caller caller) = [] := by
  have hruns : ∀ i, Runs F Undisturbed start (states i) :=
    hschedule.invariant run fun _ _ _ _ run hstep => run.runThread hstep
  obtain ⟨hdrains, hreturns⟩ := drains_of_finds hpool run hrest hschedule hfinds
  refine ⟨hdrains.mono fun i hdrained => ?_, hreturns⟩
  refine ⟨hdrained.1, fun root job hroot hmem hunder => ?_⟩
  have hevaluation := runs_evaluation (hruns i) hdrained.1
  have hresult := hevaluation.all_succeed (fun leaf _ hleaf => hsucceeds leaf hleaf)
    (runs_root_of_idle (hruns i) hdrained.1 hroot hmem) hunder
  exact (runs_ended (hruns i)).mpr ((runs_result (hruns i)).mp hresult)

end Success

section Drains

variable [DecidableEq J] [DecidableEq P] [DecidableEq T] {F : Forest J P σ}
  {start : Weaver.Start J (Option P) (Dependencies J × σ)}
  {s : State J (Option P) T (Dependencies J × σ)} {pool : Set ℕ} {begins ends : J → ι}

/-- The other policies of the program accept every job. -/
def Forest.Admits (F : Forest J P σ) : Prop :=
  ∀ policy job state, (F.policies.canRun policy job state).1 = true

/-- The dependencies have been declared by `addDependency`, which assigns the policy to both
jobs. -/
def Declares (start : Weaver.Start J (Option P) (Dependencies J × σ)) : Prop :=
  ∀ entry ∈ start.policyState.1,
    none ∈ start.queuePolicies entry.1 ∧ none ∈ start.queuePolicies entry.2

/-- The dependees, or collections around them, have been enqueued. -/
def State.DependeesEnqueued (F : Forest J P σ)
    (start : Weaver.Start J (Option P) (Dependencies J × σ))
    (s : State J (Option P) T (Dependencies J × σ)) : Prop :=
  ∀ entry ∈ start.policyState.1, ∃ root, F.Under root entry.2 ∧ .enqueued root ∈ s.data.log

/-- A job of the timetable is found. -/
theorem Forest.Timetable.finds [Finite J] (h : F.Timetable (Depends start) begins ends)
    (hadmits : F.Admits) (hsucceeds : F.Succeeds) (hdeclares : Declares start)
    (run : Runs F.addDependencyPolicy Undisturbed start s)
    (henqueued : s.DependeesEnqueued F start) : s.Finds F.addDependencyPolicy start := by
  intro hidle hne
  have hsame : F.addDependencyPolicy.Timetable (Depends start) begins ends :=
    ⟨h.lasts, h.within, h.series, h.follows⟩
  obtain ⟨waiting, hmem⟩ := List.exists_mem_of_ne_nil _ hne
  obtain ⟨ready, hready⟩ := runs_exists_isReady run hidle hmem
  -- of the jobs in the queue, one is to begin first
  obtain ⟨first, hplace, hfirst⟩ := Set.exists_min_image {job | s.data.place job = .queued} begins
    (Set.toFinite _) ⟨ready, hready.1⟩
  have hbefore := hsame.isReady_first run hidle hsucceeds hplace hfirst
  refine ⟨first, hbefore, fun s' run' hagrees => ?_⟩
  have hd := runs_depending run'
  have hresolved : ∀ dependee, none ∈ start.queuePolicies first →
      (first, dependee) ∉ s'.data.policyState.1 := by
    intro dependee hpolicy hentry
    have hdeclared := hd.declared _ hentry
    have hended : (s'.data.place dependee).isEnded = false := by
      refine Bool.eq_false_of_not_eq_true fun hended => ?_
      have hsuccess := runs_success run' hsucceeds hended
      exact hd.unresolved _ hentry (hdeclares _ hdeclared).2 ((runs_ended run').mpr ⟨hended, hsuccess⟩)
    rw [hagrees.place] at hended
    obtain ⟨root, hunder, hroot⟩ := henqueued _ hdeclared
    obtain ⟨queued, hqueued, hlt⟩ :=
      hsame.exists_before_end run hidle hsucceeds hroot hunder hended
    have hfollows := h.follows first dependee ⟨hpolicy, hdeclared⟩
    exact absurd (hfirst queued hqueued) (not_le_of_gt (hlt.trans hfollows))
  refine QueuePolicies.accepts_of_canRun
    (I := fun state : Dependencies J × σ => state.1 = s'.data.policyState.1)
    (fun policy state hstate => ?_) rfl fun policy hmem state hstate => ?_
  · rw [← hstate]
    exact withDependencies_canRun_map policy first state
  · cases policy with
    | some policy => exact hadmits policy first state.2
    | none =>
        have hnone : state.1.hasUnresolvedDependencies first = false := by
          refine Bool.eq_false_of_not_eq_true fun hunresolved => ?_
          obtain ⟨dependee, hentry⟩ := Dependencies.hasUnresolvedDependencies_iff.mp hunresolved
          exact hresolved dependee hmem (hstate ▸ hentry)
        show (!state.1.hasUnresolvedDependencies first) = true
        rw [hnone]
        rfl

omit [DecidableEq J] [DecidableEq P] [DecidableEq T] in
theorem State.DependeesEnqueued.of_subset {F : Forest J P σ}
    {s' : State J (Option P) T (Dependencies J × σ)} (h : s.DependeesEnqueued F start)
    (hsubset : s.data.log ⊆ s'.data.log) : s'.DependeesEnqueued F start := by
  intro entry hentry
  obtain ⟨root, hunder, hroot⟩ := h entry hentry
  exact ⟨root, hunder, hsubset hroot⟩

/-- **What has a timetable is done.**  Nested jobs that depend on each other, none of which fails,
are executed by every fair schedule of the callers and of a pool of workers if there is a timetable
for them and the dependees have been enqueued: when nobody has called `stop` or `requestAbort` and
no new call is made, from some time on the weaver is idle, everything below the jobs that have been
enqueued has ended with success, and every call of `enqueue` and `finish` has returned. -/
theorem timetable_drains [Fintype J] {states : ℕ → State J (Option P) T (Dependencies J × σ)}
    {threads : ℕ → Thread T} (h : F.Timetable (Depends start) begins ends)
    (hadmits : F.Admits) (hsucceeds : F.Succeeds) (hdeclares : Declares start)
    (hpool : pool.Nonempty) (run : Runs F.addDependencyPolicy Undisturbed start s)
    (hrest : s.OthersRest pool) (henqueued : s.DependeesEnqueued F start) (hstart : states 0 = s)
    (hschedule : FairSchedule (fun s thread => step F.addDependencyPolicy s (.run thread))
      (crew pool) states threads) :
    (∀ᶠ i in atTop, (states i).data.isIdleP = true ∧ AllSucceeded F (states i).data.log) ∧
      ∀ caller, ∀ᶠ i in atTop, (states i).stack (.caller caller) = [] := by
  subst hstart
  have hsame : F.addDependencyPolicy.Succeeds := hsucceeds
  refine drains_with_success hsame hpool run hrest hschedule fun i hrun => ?_
  exact h.finds hadmits hsucceeds hdeclares hrun (henqueued.of_subset (log_subset hschedule i))

/-- **What can be executed is executed.**  If nested jobs that depend on each other can be executed
at all, that is if some run that nobody disturbs executes all of them with success, then every fair
schedule of the callers and of a pool of workers executes whatever of them has been enqueued
together with its dependees: no order of the steps of the threads leads to a deadlock, and one
worker is enough. -/
theorem possible_drains [Fintype J] {T' : Type*} [DecidableEq T']
    {done : State J (Option P) T' (Dependencies J × σ)}
    {states : ℕ → State J (Option P) T (Dependencies J × σ)} {threads : ℕ → Thread T}
    (possible : Runs F.addDependencyPolicy Undisturbed start done)
    (hdone : ∀ job, .ended job .success ∈ done.data.log)
    (hadmits : F.Admits) (hdeclares : Declares start) (hpool : pool.Nonempty)
    (run : Runs F.addDependencyPolicy Undisturbed start s) (hrest : s.OthersRest pool)
    (henqueued : s.DependeesEnqueued F start) (hstart : states 0 = s)
    (hschedule : FairSchedule (fun s thread => step F.addDependencyPolicy s (.run thread))
      (crew pool) states threads) :
    (∀ᶠ i in atTop, (states i).data.isIdleP = true ∧ AllSucceeded F (states i).data.log) ∧
      ∀ caller, ∀ᶠ i in atTop, (states i).stack (.caller caller) = [] := by
  subst hstart
  have hsucceeds : F.Succeeds := succeeds_of_ended possible hdone
  have hsame : F.addDependencyPolicy.Succeeds := hsucceeds
  refine drains_with_success hsame hpool run hrest hschedule fun i hrun => ?_
  exact (runs_timetable possible hdone).finds hadmits hsucceeds hdeclares hrun
    (henqueued.of_subset (log_subset hschedule i))

omit [DecidableEq J] [DecidableEq P] in
theorem Forest.exists_root [Finite J] (F : Forest J P σ) (job : J) :
    ∃ root, F.parent root = none ∧ F.Under root job := by
  obtain ⟨root, hunder, hmax⟩ := Set.exists_max_image {outer | F.Under outer job} F.height
    (Set.toFinite _) ⟨job, .refl⟩
  refine ⟨root, Option.eq_none_iff_forall_ne_some.mpr fun collection hparent => ?_, hunder⟩
  have hle := hmax collection (.head hparent hunder)
  have hlt := F.height_lt root collection hparent
  omega

/-- Nobody disturbs, and only the threads of the crew act. -/
def UndisturbedBy (pool : Set ℕ) (s : State J P T σ) (act : Act J T) : Prop :=
  Undisturbed s act ∧ act.thread ∈ crew pool

/-- **There is a timetable if and only if everything can be executed.**  From a state of a run that
nobody disturbs, in which all nested jobs have been enqueued, the callers and the workers of any
pool can execute all of them with success if and only if none of them fails and there is a timetable
for them. -/
theorem executable_iff_timetable [Fintype J] [Countable T] (hadmits : F.Admits)
    (hdeclares : Declares start) (hpool : pool.Nonempty)
    (run : Runs F.addDependencyPolicy Undisturbed start s) (hrest : s.OthersRest pool)
    (hroots : ∀ root, F.parent root = none → .enqueued root ∈ s.data.log) :
    (∃ done : State J (Option P) T (Dependencies J × σ),
        RunWhere (step F.addDependencyPolicy) (UndisturbedBy pool) s done ∧
          ∀ job, .ended job .success ∈ done.data.log) ↔
      F.Succeeds ∧ ∃ begins ends : J → ℕ, F.Timetable (Depends start) begins ends := by
  constructor
  · rintro ⟨done, hmore, hdone⟩
    have possible : Runs F.addDependencyPolicy Undisturbed start done :=
      run.trans (hmore.mono fun _ _ h => h.1)
    exact ⟨succeeds_of_ended possible hdone, _, _, runs_timetable possible hdone⟩
  · rintro ⟨hsucceeds, begins, ends, h⟩
    obtain ⟨states, threads, hstart, hschedule⟩ := runs_exists_fairSchedule hpool run hrest
    subst hstart
    have henqueued : (states 0).DependeesEnqueued F start := by
      intro entry _
      obtain ⟨root, hroot, hunder⟩ := F.exists_root entry.2
      exact ⟨root, hunder, hroots root hroot⟩
    have hsame : F.addDependencyPolicy.Succeeds := hsucceeds
    obtain ⟨hdrains, -⟩ := drains_with_success hsame hpool run hrest hschedule fun i hrun =>
      h.finds hadmits hsucceeds hdeclares hrun (henqueued.of_subset (log_subset hschedule i))
    obtain ⟨i, -, hall⟩ := hdrains.exists
    refine ⟨states i, ?_, fun job => ?_⟩
    · refine hschedule.invariant
        (.refl : RunWhere _ (UndisturbedBy pool) (states 0) (states 0))
        (fun mid thread next hmem hmore hstep => ?_) i
      exact hmore.tail (show UndisturbedBy pool mid (.run thread) from ⟨trivial, hmem⟩) hstep
    · obtain ⟨root, hroot, hunder⟩ := F.exists_root job
      exact hall root job hroot (log_subset hschedule i (hroots root hroot)) hunder

end Drains

theorem succeeds_twoCollections : (twoCollections .returned rfl).Succeeds := by
  unfold Forest.Succeeds
  decide

theorem declares_secondAfterFirst : Declares secondAfterFirst := by
  unfold Declares
  decide

/-- The first Collection begins before the second one. -/
theorem timetable_twoCollections :
    (twoCollections .returned rfl).Timetable (Depends secondAfterFirst)
      (![0, 1, 4, 5, 5] : Fin 5 → ℕ) ![3, 2, 7, 6, 6] := by
  refine ⟨by decide, by decide, by decide, fun dependent dependee hdepends => ?_⟩
  obtain ⟨rfl, rfl⟩ : dependent = 2 ∧ dependee = 0 := by
    simpa [Depends, secondAfterFirst] using hdepends.2
  decide

/-- The Collections have been enqueued together, the second one first. -/
theorem exists_enqueued_twoCollections :
    ∃ s : State (Fin 5) (Option Empty) Unit (Dependencies (Fin 5) × Unit),
      Runs (twoCollections .returned rfl).addDependencyPolicy Undisturbed secondAfterFirst s ∧
        s.data.assignments = [2, 0] ∧ s.stack (.caller ()) = [.finish] ∧
        (∀ root, (twoCollections .returned rfl).parent root = none →
          .enqueued root ∈ s.data.log) ∧
        s.DependeesEnqueued (twoCollections .returned rfl) secondAfterFirst ∧
        s.OthersRest {0} := by
  obtain ⟨s, run, ⟨hlist, hfinish, hroots⟩, hframe⟩ :=
    exists_runs (twoCollections .returned rfl).addDependencyPolicy Undisturbed secondAfterFirst
      (fun s : State (Fin 5) (Option Empty) Unit (Dependencies (Fin 5) × Unit) =>
        s.data.assignments = [2, 0] ∧ s.stack (.caller ()) = [.finish] ∧
          ∀ root, (twoCollections .returned rfl).parent root = none →
            .enqueued root ∈ s.data.log)
      (List.flatten [[.enqueue () [2, 0]], List.replicate 4 (.run (.caller ())), [.finish ()]])
      (by decide +kernel)
  refine ⟨s, run, hlist, hfinish, hroots, fun entry hentry => ?_, fun number _ => ?_⟩
  · obtain rfl : entry = (2, 0) := List.mem_singleton.mp hentry
    exact ⟨0, .refl, hroots 0 rfl⟩
  · exact hframe (.worker number) (by simp [Act.thread])

theorem timetable_drains_twoCollections :
    ∃ (s : State (Fin 5) (Option Empty) Unit (Dependencies (Fin 5) × Unit))
      (states : ℕ → State (Fin 5) (Option Empty) Unit (Dependencies (Fin 5) × Unit)),
      s.data.assignments = [2, 0] ∧ s.stack (.caller ()) = [.finish] ∧ states 0 = s ∧
        (∀ᶠ i in atTop, (states i).data.isIdleP = true ∧
          AllSucceeded (twoCollections .returned rfl) (states i).data.log) ∧
        ∀ᶠ i in atTop, (states i).stack (.caller ()) = [] := by
  obtain ⟨s, run, hlist, hfinish, -, henqueued, hrest⟩ := exists_enqueued_twoCollections
  have hpool : ({0} : Set ℕ).Nonempty := Set.singleton_nonempty 0
  obtain ⟨states, threads, hstart, hschedule⟩ := runs_exists_fairSchedule hpool run hrest
  have hdrains := timetable_drains timetable_twoCollections (fun policy => policy.elim)
    succeeds_twoCollections declares_secondAfterFirst hpool run hrest henqueued hstart hschedule
  exact ⟨s, states, hlist, hfinish, hstart, hdrains.1, hdrains.2 ()⟩

/-- In some run a worker executes the two Collections. -/
theorem possible_drains_twoCollections :
    ∃ (s last : State (Fin 5) (Option Empty) Unit (Dependencies (Fin 5) × Unit))
      (states : ℕ → State (Fin 5) (Option Empty) Unit (Dependencies (Fin 5) × Unit)),
      (∀ job, .ended job .success ∈ last.data.log) ∧ s.data.assignments = [2, 0] ∧
        s.stack (.caller ()) = [.finish] ∧ states 0 = s ∧
        (∀ᶠ i in atTop, (states i).data.isIdleP = true ∧
          AllSucceeded (twoCollections .returned rfl) (states i).data.log) ∧
        ∀ᶠ i in atTop, (states i).stack (.caller ()) = [] := by
  obtain ⟨s, run, hlist, hfinish, -, henqueued, hrest⟩ := exists_enqueued_twoCollections
  have hpool : ({0} : Set ℕ).Nonempty := Set.singleton_nonempty 0
  obtain ⟨states, threads, hstart, hschedule⟩ := runs_exists_fairSchedule hpool run hrest
  obtain ⟨last, possible, hdone, -⟩ :=
    exists_runs (twoCollections .returned rfl).addDependencyPolicy Undisturbed secondAfterFirst
      (fun s : State (Fin 5) (Option Empty) Unit (Dependencies (Fin 5) × Unit) =>
        ∀ job, .ended job .success ∈ s.data.log)
      (List.flatten [[.enqueue () [2, 0]], List.replicate 4 (.run (.caller ())),
        List.replicate 80 (.run (.worker 0))]) (by decide +kernel)
  have hdrains := possible_drains possible hdone (fun policy => policy.elim)
    declares_secondAfterFirst hpool run hrest henqueued hstart hschedule
  exact ⟨s, last, states, hdone, hlist, hfinish, hstart, hdrains.1, hdrains.2 ()⟩

/-- One worker can execute the two Collections. -/
theorem executable_iff_timetable_twoCollections :
    ∃ s done : State (Fin 5) (Option Empty) Unit (Dependencies (Fin 5) × Unit),
      s.data.assignments = [2, 0] ∧
        RunWhere (step (twoCollections .returned rfl).addDependencyPolicy) (UndisturbedBy {0})
          s done ∧
        ∀ job, .ended job .success ∈ done.data.log := by
  obtain ⟨s, run, hlist, -, hroots, -, hrest⟩ := exists_enqueued_twoCollections
  obtain ⟨done, hmore, hdone⟩ := (executable_iff_timetable (fun policy => policy.elim)
    declares_secondAfterFirst (Set.singleton_nonempty 0) run hrest hroots).mpr
      ⟨succeeds_twoCollections, _, _, timetable_twoCollections⟩
  exact ⟨s, done, hlist, hmore, hdone⟩

end Collection

end ThreadWeaver
