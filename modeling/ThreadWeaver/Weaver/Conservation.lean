import ThreadWeaver.Weaver.Control
import ThreadWeaver.Weaver.Ledger
import ThreadWeaver.Library.History
import Mathlib.Data.List.Induction

/-!
# Conservation of jobs

The log says where a job is: in the list, with a worker, ended or dequeued (`lastPlace`).
When jobs are enqueued in `Status_New` only, the list and the workers agree with the log, so
that a job that was enqueued is in exactly one of these places at any time.
-/

namespace ThreadWeaver.Weaver

open Library (split_of_append split_of_append_singleton)

variable {J P T σ ε : Type*}

/-- Where a job that was enqueued is. -/
inductive Place
  | listed
  | assigned (thread : ℕ)
  | ended
  | dequeued
  deriving DecidableEq, Repr

/-- The place to which an event brings a job. -/
def Event.place? : Event J P ε → Option (J × Place)
  | enqueued job => some (job, .listed)
  | dequeued job => some (job, .dequeued)
  | assigned thread job => some (job, .assigned thread)
  | ended job _ => some (job, .ended)
  | configured _ | finished | suspended | stateChanged _ | deleted _ => none

section LastPlace

variable [DecidableEq J] {job : J} {log : List (Event J P ε)}

/-- The place of the job after the event. -/
def placeAfter (job : J) (place : Option Place) (event : Event J P ε) : Option Place :=
  match event.place? with
  | some (moved, next) => if moved = job then some next else place
  | none => place

/-- The place of the job according to the log. -/
def lastPlace (job : J) (log : List (Event J P ε)) : Option Place :=
  log.foldl (placeAfter job) none

@[simp] theorem lastPlace_nil : lastPlace job ([] : List (Event J P ε)) = none := rfl

theorem lastPlace_append_singleton (event : Event J P ε) :
    lastPlace job (log ++ [event]) = placeAfter job (lastPlace job log) event := by
  simp [lastPlace]

/-- An event that moves no job changes no place. -/
theorem lastPlace_append_of_none {event : Event J P ε} (h : event.place? = none) :
    lastPlace job (log ++ [event]) = lastPlace job log := by
  rw [lastPlace_append_singleton, placeAfter, h]

theorem lastPlace_append_of_forall_none {more : List (Event J P ε)}
    (h : ∀ event ∈ more, event.place? = none) :
    lastPlace job (log ++ more) = lastPlace job log := by
  induction more generalizing log with
  | nil => simp
  | cons event rest ih =>
      rw [List.forall_mem_cons] at h
      rw [List.append_cons, ih h.2, lastPlace_append_of_none h.1]

theorem lastPlace_append_self {event : Event J P ε} (place : Place)
    (h : event.place? = some (job, place)) :
    lastPlace job (log ++ [event]) = some place := by
  rw [lastPlace_append_singleton, placeAfter, h]
  simp

theorem lastPlace_append_of_ne {event : Event J P ε} {moved : J} (place : Place)
    (h : event.place? = some (moved, place)) (hne : job ≠ moved) :
    lastPlace job (log ++ [event]) = lastPlace job log := by
  rw [lastPlace_append_singleton, placeAfter, h]
  simp [hne.symm]

theorem lastPlace_append_dequeued (jobs : List J) :
    lastPlace job (log ++ jobs.map Event.dequeued) =
      if job ∈ jobs then some .dequeued else lastPlace job log := by
  induction jobs generalizing log with
  | nil => simp
  | cons head rest ih =>
      rw [List.map_cons, List.append_cons, ih]
      by_cases hrest : job ∈ rest
      · simp [hrest]
      · by_cases hhead : job = head
        · subst hhead
          rw [if_neg hrest, lastPlace_append_self .dequeued rfl]
          simp
        · rw [if_neg hrest, lastPlace_append_of_ne .dequeued rfl hhead]
          simp [hrest, hhead]

/-- A job that some event moved has a place. -/
theorem lastPlace_ne_none {event : Event J P ε} (place : Place) (hmem : event ∈ log)
    (hmoves : event.place? = some (job, place)) : lastPlace job log ≠ none := by
  induction log using List.reverseRecOn with
  | nil => cases hmem
  | append_singleton init last ih =>
      rcases hlast : last.place? with _ | ⟨moved, next⟩
      · rw [lastPlace_append_of_none hlast]
        rcases List.mem_append.mp hmem with hmem | hmem
        · exact ih hmem
        · rw [List.mem_singleton.mp hmem, hlast] at hmoves
          cases hmoves
      · by_cases hne : job = moved
        · subst hne
          simp [lastPlace_append_self _ hlast]
        · rw [lastPlace_append_of_ne _ hlast hne]
          rcases List.mem_append.mp hmem with hmem | hmem
          · exact ih hmem
          · rw [List.mem_singleton.mp hmem, hlast] at hmoves
            cases hmoves
            exact absurd rfl hne

/-- The place of a job is the one of the last event that moved it. -/
theorem exists_of_lastPlace {place : Place} (h : lastPlace job log = some place) :
    ∃ earlier event later, log = earlier ++ event :: later ∧ event.place? = some (job, place) ∧
      ∀ other ∈ later, ∀ next, other.place? ≠ some (job, next) := by
  induction log using List.reverseRecOn with
  | nil => cases h
  | append_singleton init event ih =>
      rcases hmoves : event.place? with _ | ⟨moved, next⟩
      · rw [lastPlace_append_of_none hmoves] at h
        obtain ⟨earlier, found, later, rfl, hfound, hlater⟩ := ih h
        refine ⟨earlier, found, later ++ [event], by simp, hfound, ?_⟩
        intro other hother place'
        rcases List.mem_append.mp hother with hother | hother
        · exact hlater other hother place'
        · simp [List.mem_singleton.mp hother, hmoves]
      · by_cases hne : job = moved
        · subst hne
          rw [lastPlace_append_self _ hmoves] at h
          exact ⟨init, event, [], rfl, hmoves.trans (by simpa using h), by simp⟩
        · rw [lastPlace_append_of_ne _ hmoves hne] at h
          obtain ⟨earlier, found, later, rfl, hfound, hlater⟩ := ih h
          refine ⟨earlier, found, later ++ [event], by simp, hfound, ?_⟩
          intro other hother place'
          rcases List.mem_append.mp hother with hother | hother
          · exact hlater other hother place'
          · rw [List.mem_singleton.mp hother, hmoves]
            simpa using fun heq => absurd heq.symm hne

/-- A job that is in the list after events among which it was not enqueued was there
before. -/
theorem listed_of_append {more : List (Event J P ε)} (hmore : .enqueued job ∉ more)
    (h : lastPlace job (log ++ more) = some .listed) : lastPlace job log = some .listed := by
  induction more using List.reverseRecOn with
  | nil => simpa using h
  | append_singleton init event ih =>
      rw [List.mem_append, List.mem_singleton, not_or] at hmore
      refine ih hmore.1 ?_
      rw [← List.append_assoc] at h
      rcases hmoves : event.place? with _ | ⟨moved, next⟩
      · rwa [lastPlace_append_of_none hmoves] at h
      · by_cases hne : job = moved
        · subst hne
          rw [lastPlace_append_self _ hmoves, Option.some.injEq] at h
          subst h
          cases event with
          | enqueued other =>
              cases hmoves
              exact absurd rfl hmore.2
          | _ => cases hmoves
        · rwa [lastPlace_append_of_ne _ hmoves hne] at h

/-- Jobs were assigned only when they stood in the list. -/
def AssignedFromList (log : List (Event J P ε)) : Prop :=
  ∀ before after thread job, log = before ++ .assigned thread job :: after →
    lastPlace job before = some .listed

theorem AssignedFromList.append_singleton (h : AssignedFromList log) {event : Event J P ε}
    (hevent : ∀ thread job, event = .assigned thread job → lastPlace job log = some .listed) :
    AssignedFromList (log ++ [event]) := by
  intro before after thread job hsplit
  rcases split_of_append_singleton hsplit with ⟨rfl, heq⟩ | ⟨rest, hlog⟩
  · exact hevent thread job heq.symm
  · exact h before rest thread job hlog

theorem AssignedFromList.append (h : AssignedFromList log) {more : List (Event J P ε)}
    (hmore : ∀ event ∈ more, ∀ thread job, event ≠ .assigned thread job) :
    AssignedFromList (log ++ more) := by
  intro before after thread job hsplit
  obtain ⟨rest, hlog⟩ := split_of_append hsplit fun hmem => hmore _ hmem thread job rfl
  exact h before rest thread job hlog

end LastPlace

/-! ## The ledger agrees with its log -/

/-- The thread has been handed the job, whose end has not run. -/
def Ledger.Holds (l : Ledger J P σ ε) (thread : ℕ) (job : J) : Prop :=
  ∃ phase : Phase, phase.beforeEnd ∧ l.work thread = some (job, phase)

/-- The list and the workers agree with the log, a job on its way is not in `Status_New`, and
jobs were assigned out of the list only. -/
structure Ledger.Conserved [DecidableEq J] (l : Ledger J P σ ε) : Prop where
  nodup : l.assignments.Nodup
  mem_iff : ∀ job, job ∈ l.assignments ↔ lastPlace job l.log = some .listed
  holds_iff : ∀ thread job, l.Holds thread job ↔
    lastPlace job l.log = some (.assigned thread)
  not_new : ∀ job place, lastPlace job l.log = some place → place ≠ .dequeued →
    l.status job ≠ .new
  assignedFromList : AssignedFromList l.log

namespace Ledger

section Moves

variable [DecidableEq J] {l l' : Ledger J P σ ε}

/-- A move that leaves the jobs where they are. -/
theorem Conserved.of_same (h : l.Conserved) (more : List (Event J P ε))
    (hmore : ∀ event ∈ more, event.place? = none) (hlog : l'.log = l.log ++ more)
    (hassignments : l'.assignments = l.assignments)
    (hholds : ∀ thread job, l'.Holds thread job ↔ l.Holds thread job)
    (hstatus : ∀ job, l'.status job = .new → l.status job = .new) : l'.Conserved where
  nodup := hassignments ▸ h.nodup
  mem_iff job := by
    rw [hassignments, hlog, lastPlace_append_of_forall_none hmore]
    exact h.mem_iff job
  holds_iff thread job := by
    rw [hholds, hlog, lastPlace_append_of_forall_none hmore]
    exact h.holds_iff thread job
  not_new job place hplace hne hnew := by
    rw [hlog, lastPlace_append_of_forall_none hmore] at hplace
    exact h.not_new job place hplace hne (hstatus job hnew)
  assignedFromList := by
    rw [hlog]
    refine h.assignedFromList.append fun event hevent thread job heq => ?_
    have hnone := hmore event hevent
    rw [heq] at hnone
    cases hnone

/-- A move that brings one job to a new place. -/
theorem Conserved.of_moved (h : l.Conserved) (event : Event J P ε) (job : J) (place : Place)
    (hevent : event.place? = some (job, place)) (hlog : l'.log = l.log ++ [event])
    (hnodup : l'.assignments.Nodup)
    (hmem : ∀ other,
      other ∈ l'.assignments ↔ if other = job then place = .listed else other ∈ l.assignments)
    (hholds : ∀ thread other,
      l'.Holds thread other ↔ if other = job then place = .assigned thread
        else l.Holds thread other)
    (hstatus : ∀ other ≠ job, l'.status other = .new → l.status other = .new)
    (hown : place ≠ .dequeued → l'.status job ≠ .new)
    (hfrom : ∀ thread, place = .assigned thread → job ∈ l.assignments) : l'.Conserved where
  nodup := hnodup
  mem_iff other := by
    rw [hmem, hlog]
    by_cases hother : other = job
    · subst hother
      rw [if_pos rfl, lastPlace_append_self _ hevent, Option.some.injEq]
    · rw [if_neg hother, lastPlace_append_of_ne _ hevent hother]
      exact h.mem_iff other
  holds_iff thread other := by
    rw [hholds, hlog]
    by_cases hother : other = job
    · subst hother
      rw [if_pos rfl, lastPlace_append_self _ hevent, Option.some.injEq]
    · rw [if_neg hother, lastPlace_append_of_ne _ hevent hother]
      exact h.holds_iff thread other
  not_new other at_ hplace hne hnew := by
    rw [hlog] at hplace
    by_cases hother : other = job
    · subst hother
      rw [lastPlace_append_self _ hevent, Option.some.injEq] at hplace
      exact hown (hplace ▸ hne) hnew
    · rw [lastPlace_append_of_ne _ hevent hother] at hplace
      exact h.not_new other at_ hplace hne (hstatus other hother hnew)
  assignedFromList := by
    rw [hlog]
    refine h.assignedFromList.append_singleton fun thread moved heq => ?_
    rw [heq] at hevent
    cases hevent
    exact (h.mem_iff job).mp (hfrom thread rfl)

/-- A job that may be enqueued is nowhere. -/
theorem Conserved.of_new (h : l.Conserved) {job : J} (hnew : l.status job = .new) :
    job ∉ l.assignments ∧ ∀ thread, ¬ l.Holds thread job := by
  constructor
  · intro hmem
    exact h.not_new job _ ((h.mem_iff job).mp hmem) (by simp) hnew
  · intro thread hholds
    exact h.not_new job _ ((h.holds_iff thread job).mp hholds) (by simp) hnew

/-- A job in the list is with no worker. -/
theorem Conserved.not_holds (h : l.Conserved) {job : J} (hmem : job ∈ l.assignments)
    (thread : ℕ) : ¬ l.Holds thread job := by
  intro hholds
  rw [h.mem_iff] at hmem
  rw [h.holds_iff, hmem] at hholds
  cases hholds

/-- No two workers have the same job. -/
theorem Conserved.holds_unique (h : l.Conserved) {job : J} {thread other : ℕ}
    (hthread : l.Holds thread job) (hother : l.Holds other job) : thread = other := by
  rw [h.holds_iff] at hthread hother
  rw [hthread] at hother
  simpa using hother

omit [DecidableEq J] in
/-- A worker that has a job goes on to a phase on the same side of the end. -/
theorem holds_setWork {thread : ℕ} {job : J} {phase next : Phase}
    (hwork : l.work thread = some (job, phase)) (hside : next.beforeEnd = phase.beforeEnd)
    (other : ℕ) (held : J) :
    (l.setWork thread (some (job, next))).Holds other held ↔ l.Holds other held := by
  unfold Holds setWork
  by_cases hother : other = thread
  · subst hother
    simp only [Function.update_self, hwork, Option.some.injEq, Prod.mk.injEq]
    constructor
    · rintro ⟨_, hbefore, rfl, rfl⟩
      exact ⟨phase, hside ▸ hbefore, rfl, rfl⟩
    · rintro ⟨_, hbefore, rfl, rfl⟩
      exact ⟨next, hside ▸ hbefore, rfl, rfl⟩
  · simp only [Function.update_of_ne hother]

/-- A job whose status was set to something else is not the one that is in `Status_New`. -/
private theorem status_of_update {status : J → Status} {changed job : J} {value : Status}
    (h : Function.update status changed value job = .new) (hvalue : value ≠ .new) :
    job ≠ changed ∧ status job = .new := by
  by_cases hjob : job = changed
  · subst hjob
    rw [Function.update_self] at h
    exact absurd h hvalue
  · exact ⟨hjob, by rwa [Function.update_of_ne hjob] at h⟩

variable [DecidableEq P] {S : Setup J P σ ε} {D : Discipline J P σ ε}

theorem Conserved.move (h : l.Conserved) (hnew : D.onlyNew) (hmove : Move S D l l') : l'.Conserved := by
  cases hmove with
  | note event hnote =>
      refine h.of_same [event] ?_ rfl rfl (fun _ _ => Iff.rfl) fun _ => id
      intro e he
      rw [List.mem_singleton.mp he]
      cases event <;> first | rfl | cases hnote
  | enqueue job hstatus =>
      obtain ⟨hnot, hfree⟩ := h.of_new (hstatus hnew)
      refine h.of_moved (.enqueued job) job .listed rfl rfl ?_ ?_ ?_ ?_ ?_ ?_
      · exact (Library.insertFromBack_perm _ _ _).nodup_iff.mpr
          (List.nodup_cons.mpr ⟨hnot, h.nodup⟩)
      · intro other
        rw [Library.mem_insertFromBack]
        by_cases hother : other = job <;> simp [hother]
      · intro thread other
        show l.Holds thread other ↔ _
        by_cases hother : other = job
        · subst hother
          simpa using hfree thread
        · simp [hother]
      · intro other hother hstatus
        simpa [Function.update_of_ne hother] using hstatus
      · simp
      · simp
  | takeOut job hmem =>
      refine h.of_moved (.dequeued job) job .dequeued rfl rfl ?_ ?_ ?_ ?_ ?_ ?_
      · exact h.nodup.erase job
      · intro other
        rw [h.nodup.mem_erase_iff]
        by_cases hother : other = job <;> simp [hother]
      · intro thread other
        show l.Holds thread other ↔ _
        by_cases hother : other = job
        · subst hother
          simpa using h.not_holds hmem thread
        · simp [hother]
      · intro other hother hstatus
        simpa [Function.update_of_ne hother] using hstatus
      · simp
      · simp
  | clear =>
      have hplace : ∀ job, lastPlace job (l.log ++ l.assignments.map Event.dequeued) =
          if job ∈ l.assignments then some .dequeued else lastPlace job l.log :=
        fun _ => lastPlace_append_dequeued _
      refine ⟨List.nodup_nil, ?_, ?_, ?_, ?_⟩
      · intro job
        rw [hplace]
        by_cases hjob : job ∈ l.assignments
        · simp [hjob]
        · simpa [hjob] using fun hlast => hjob ((h.mem_iff job).mpr hlast)
      · intro thread job
        rw [hplace]
        show l.Holds thread job ↔ _
        by_cases hjob : job ∈ l.assignments
        · simpa [hjob] using h.not_holds hjob thread
        · simpa [hjob] using h.holds_iff thread job
      · intro job place
        rw [hplace]
        by_cases hjob : job ∈ l.assignments
        · simp only [if_pos hjob, Option.some.injEq]
          exact fun heq hne => absurd heq.symm hne
        · simp only [if_neg hjob]
          exact h.not_new job place
      · exact h.assignedFromList.append (by simp)
  | refuse hscan =>
      refine h.of_same [] (by simp) (List.append_nil _).symm ?_ (fun _ _ => Iff.rfl) fun _ => id
      exact State.scan_eq_none_rest hscan
  | @assign thread job rest _ hidle hscan =>
      obtain ⟨front, back, hlist, rfl⟩ := State.scan_eq_some_split hscan
      have hnodup := h.nodup
      rw [hlist] at hnodup
      have hmem : job ∈ l.assignments := by simp [hlist]
      refine h.of_moved (.assigned thread job) job (.assigned thread) rfl rfl
        ?_ ?_ ?_ ?_ ?_ ?_
      · exact (List.nodup_middle.mp hnodup).of_cons
      · intro other
        have hnot := (List.nodup_cons.mp (List.nodup_middle.mp hnodup)).1
        rw [hlist]
        by_cases hother : other = job
        · subst hother
          simpa using hnot
        · simp [hother]
      · intro other held
        unfold Holds
        by_cases hother : other = thread
        · subst hother
          by_cases hheld : held = job
          · subst hheld
            simp [Phase.beforeEnd]
          · simp [hheld, hidle, Ne.symm hheld]
        · simp only [Function.update_of_ne hother]
          by_cases hheld : held = job
          · subst hheld
            have hnot := h.not_holds hmem other
            unfold Holds at hnot
            simp only [hnot, if_true, Place.assigned.injEq, false_iff]
            exact Ne.symm hother
          · simp [hheld]
      · exact fun _ _ => id
      · exact fun _ => h.not_new job _ ((h.mem_iff job).mp hmem) (by simp)
      · exact fun _ _ => hmem
  | prepare hwork =>
      exact h.of_same [] (by simp) (List.append_nil _).symm rfl (holds_setWork hwork rfl)
        fun _ => id
  | begin hwork =>
      refine h.of_same [] (by simp) (List.append_nil _).symm rfl (holds_setWork hwork rfl) ?_
      intro other hstatus
      exact (status_of_update hstatus (by simp)).2
  | @run thread job hwork =>
      refine h.of_same [] (by simp) (List.append_nil _).symm rfl (holds_setWork hwork rfl) ?_
      intro other hstatus
      refine (status_of_update hstatus ?_).2
      have hfinished := S.outcome_isFinished job
      rintro hnew
      rw [hnew] at hfinished
      cases hfinished
  | @finish thread job hwork =>
      have hheld : l.Holds thread job := ⟨.ending, rfl, hwork⟩
      have hplace := (h.holds_iff thread job).mp hheld
      refine h.of_moved (.ended job (l.status job)) job .ended rfl rfl
        h.nodup ?_ ?_ ?_ ?_ ?_
      · intro other
        show other ∈ l.assignments ↔ _
        by_cases hother : other = job
        · subst hother
          have hnot : other ∉ l.assignments := fun hmem => h.not_holds hmem thread hheld
          simpa using hnot
        · simp [hother]
      · intro other held
        by_cases hother : other = thread
        · subst hother
          have hnot : held ≠ job → ¬ l.Holds other held := by
            rintro hne ⟨_, _, hwork'⟩
            rw [hwork] at hwork'
            cases hwork'
            exact hne rfl
          by_cases hjob : held = job <;> simp_all [Holds, setWork, record, Phase.beforeEnd]
        · have hsame : (setWork thread (some (job, .freeing 0))
              (record (.ended job (l.status job)) l)).Holds other held ↔ l.Holds other held := by
            simp [Holds, setWork, record, Function.update_of_ne hother]
          rw [hsame]
          by_cases hjob : held = job
          · subst hjob
            simpa using fun hholds => hother (h.holds_unique hholds hheld)
          · simp [hjob]
      · exact fun _ _ => id
      · exact fun _ => h.not_new job _ hplace (by simp)
      · simp
  | free hwork hpolicy =>
      exact h.of_same [] (by simp) (List.append_nil _).symm rfl (holds_setWork hwork rfl)
        fun _ => id
  | freed hwork _ =>
      exact h.of_same [] (by simp) (List.append_nil _).symm rfl (holds_setWork hwork rfl)
        fun _ => id
  | @leave thread job hwork =>
      refine h.of_same [] (by simp) (List.append_nil _).symm rfl ?_ fun _ => id
      intro other held
      unfold Holds setWork
      by_cases hother : other = thread
      · subst hother
        simp [hwork, Phase.beforeEnd]
      · simp [hother]
  | configure ops _ =>
      exact h.of_same [.configured ops] (by simp [Event.place?]) rfl rfl (fun _ _ => Iff.rfl)
        fun _ => id

theorem Conserved.moves (h : l.Conserved) (hnew : D.onlyNew) (hmoves : Moves S D l l') :
    l'.Conserved := by
  induction hmoves with
  | refl => exact h
  | tail _ hmove ih => exact ih.move hnew hmove

omit [DecidableEq P] in
theorem conserved_init {T : Type*} (start : Start J P σ) :
    (init (T := T) S start).ledger.Conserved := by
  refine ⟨List.nodup_nil, ?_, ?_, ?_, ?_⟩
  · simp [State.ledger, init]
  · simp [State.ledger, init, Ledger.Holds, WorkerPc.work?]
  · simp [State.ledger, init]
  · simp [State.ledger, init, AssignedFromList]

/-! ## How jobs end -/

/-- The end of a job is known from the log, and its status is the outcome of the job. -/
structure EndsKnown (S : Setup J P σ ε) (l : Ledger J P σ ε) : Prop where
  ending : ∀ thread job, l.work thread = some (job, .ending) →
    l.status job = (S.outcome job).status
  freeing : ∀ thread job index, l.work thread = some (job, .freeing index) →
    lastPlace job l.log = some .ended
  final : ∀ job, lastPlace job l.log = some .ended → .ended job (l.status job) ∈ l.log
  outcome : ∀ job status, .ended job status ∈ l.log →
    status = (S.outcome job).status ∧ ∃ thread, .assigned thread job ∈ l.log

/-- No worker has come to the end of a job. -/
structure FurtherBack (work work' : ℕ → Option (J × Phase)) : Prop where
  ending : ∀ thread job, work' thread = some (job, .ending) → work thread = some (job, .ending)
  freeing : ∀ thread job index, work' thread = some (job, .freeing index) →
    ∃ index, work thread = some (job, .freeing index)

omit [DecidableEq J] [DecidableEq P] in
theorem FurtherBack.refl (work : ℕ → Option (J × Phase)) : FurtherBack work work :=
  ⟨fun _ _ h => h, fun _ _ _ h => ⟨_, h⟩⟩

omit [DecidableEq J] [DecidableEq P] in
theorem FurtherBack.update {work : ℕ → Option (J × Phase)} {thread : ℕ}
    {next : Option (J × Phase)}
    (hending : ∀ job, next = some (job, .ending) → work thread = some (job, .ending))
    (hfreeing : ∀ job index, next = some (job, .freeing index) →
      ∃ index, work thread = some (job, .freeing index)) :
    FurtherBack work (Function.update work thread next) where
  ending other job h := by
    by_cases hother : other = thread
    · subst hother
      exact hending job (by simpa using h)
    · simpa [Function.update_of_ne hother] using h
  freeing other job index h := by
    by_cases hother : other = thread
    · subst hother
      exact hfreeing job index (by simpa using h)
    · exact ⟨index, by simpa [Function.update_of_ne hother] using h⟩

omit [DecidableEq J] [DecidableEq P] in
/-- A worker that goes on to another phase is not further unless that is the end. -/
theorem FurtherBack.phase {work : ℕ → Option (J × Phase)} (thread : ℕ) (job : J) {phase : Phase}
    (hending : phase ≠ .ending) (hfreeing : ∀ index, phase ≠ .freeing index) :
    FurtherBack work (Function.update work thread (some (job, phase))) :=
  .update (fun _ heq => by cases heq; exact absurd rfl hending)
    fun _ index heq => by cases heq; exact absurd rfl (hfreeing index)

omit [DecidableEq P] in
/-- A move that leaves the jobs where they are. -/
theorem EndsKnown.of_same (h : l.EndsKnown S) (more : List (Event J P ε))
    (hmore : ∀ event ∈ more, event.place? = none) (hlog : l'.log = l.log ++ more)
    (hstatus : l'.status = l.status) (hback : FurtherBack l.work l'.work) : l'.EndsKnown S where
  ending thread job hwork := by
    rw [hstatus]
    exact h.ending thread job (hback.ending thread job hwork)
  freeing thread job index hwork := by
    obtain ⟨_, hwork'⟩ := hback.freeing thread job index hwork
    rw [hlog, lastPlace_append_of_forall_none hmore]
    exact h.freeing thread job _ hwork'
  final job hplace := by
    rw [hlog, lastPlace_append_of_forall_none hmore] at hplace
    rw [hlog, hstatus]
    exact List.mem_append_left _ (h.final job hplace)
  outcome job status hmem := by
    rw [hlog] at hmem ⊢
    rcases List.mem_append.mp hmem with hmem | hmem
    · obtain ⟨houtcome, thread, hassigned⟩ := h.outcome job status hmem
      exact ⟨houtcome, thread, List.mem_append_left _ hassigned⟩
    · cases hmore _ hmem

omit [DecidableEq P] in
/-- A move that brings a job that is not about to end to a new place. -/
theorem EndsKnown.of_moved (h : l.EndsKnown S) (event : Event J P ε) (job : J) (place : Place)
    (hevent : event.place? = some (job, place)) (hplace : place ≠ .ended)
    (hlog : l'.log = l.log ++ [event])
    (hstatus : ∀ other ≠ job, l'.status other = l.status other) (hback : FurtherBack l.work l'.work)
    (hending : ∀ thread, l.work thread ≠ some (job, .ending))
    (hended : lastPlace job l.log ≠ some .ended) : l'.EndsKnown S where
  ending thread other hwork := by
    have hwork' := hback.ending thread other hwork
    have hne : other ≠ job := by
      rintro rfl
      exact hending thread hwork'
    rw [hstatus other hne]
    exact h.ending thread other hwork'
  freeing thread other index hwork := by
    obtain ⟨_, hwork'⟩ := hback.freeing thread other index hwork
    have hlast := h.freeing thread other _ hwork'
    have hne : other ≠ job := by
      rintro rfl
      exact hended hlast
    rw [hlog, lastPlace_append_of_ne _ hevent hne]
    exact hlast
  final other hlast := by
    rw [hlog] at hlast ⊢
    by_cases hne : other = job
    · subst hne
      rw [lastPlace_append_self _ hevent, Option.some.injEq] at hlast
      exact absurd hlast hplace
    · rw [lastPlace_append_of_ne _ hevent hne] at hlast
      rw [hstatus other hne]
      exact List.mem_append_left _ (h.final other hlast)
  outcome other status hmem := by
    rw [hlog] at hmem ⊢
    rcases List.mem_append.mp hmem with hmem | hmem
    · obtain ⟨houtcome, thread, hassigned⟩ := h.outcome other status hmem
      exact ⟨houtcome, thread, List.mem_append_left _ hassigned⟩
    · rw [← List.mem_singleton.mp hmem] at hevent
      cases hevent
      exact absurd rfl hplace

omit [DecidableEq P] in
/-- A worker goes on with its job and sets the status of no other. -/
theorem EndsKnown.of_held (h : l.EndsKnown S) (hconserved : l.Conserved) {thread : ℕ} {job : J}
    {phase : Phase} (hheld : l.Holds thread job) (hlog : l'.log = l.log)
    (hstatus : ∀ other ≠ job, l'.status other = l.status other)
    (hwork : l'.work = Function.update l.work thread (some (job, phase)))
    (hfreeing : ∀ index, phase ≠ .freeing index)
    (hending : phase = .ending → l'.status job = (S.outcome job).status) : l'.EndsKnown S where
  ending other held hother := by
    rw [hwork] at hother
    by_cases hthread : other = thread
    · subst hthread
      rw [Function.update_self, Option.some.injEq, Prod.mk.injEq] at hother
      exact hother.1 ▸ hending hother.2
    · rw [Function.update_of_ne hthread] at hother
      have hne : held ≠ job := by
        rintro rfl
        exact hthread (hconserved.holds_unique ⟨.ending, rfl, hother⟩ hheld)
      rw [hstatus held hne]
      exact h.ending other held hother
  freeing other held index hother := by
    rw [hwork] at hother
    by_cases hthread : other = thread
    · subst hthread
      rw [Function.update_self, Option.some.injEq, Prod.mk.injEq] at hother
      exact absurd hother.2 (hfreeing index)
    · rw [Function.update_of_ne hthread] at hother
      rw [hlog]
      exact h.freeing other held index hother
  final other hlast := by
    rw [hlog] at hlast ⊢
    have hne : other ≠ job := by
      rintro rfl
      rw [(hconserved.holds_iff thread other).mp hheld] at hlast
      cases hlast
    rw [hstatus other hne]
    exact h.final other hlast
  outcome other status hmem := by
    rw [hlog] at hmem ⊢
    exact h.outcome other status hmem

theorem EndsKnown.move (hconserved : l.Conserved) (h : l.EndsKnown S) (hnew : D.onlyNew)
    (hmove : Move S D l l') : l'.EndsKnown S := by
  -- a job that a worker is ending is held by it
  have hholds : ∀ {thread job}, l.work thread = some (job, .ending) → l.Holds thread job :=
    fun hwork => ⟨.ending, rfl, hwork⟩
  cases hmove with
  | note event hnote =>
      refine h.of_same [event] ?_ rfl rfl (.refl _)
      intro e he
      rw [List.mem_singleton.mp he]
      cases event <;> first | rfl | cases hnote
  | enqueue job hstatus =>
      obtain ⟨_, hfree⟩ := hconserved.of_new (hstatus hnew)
      refine h.of_moved (.enqueued job) job .listed rfl (by simp) rfl ?_ (.refl _) ?_ ?_
      · exact fun other hne => Function.update_of_ne hne _ _
      · exact fun thread hwork => hfree thread (hholds hwork)
      · exact fun hlast => hconserved.not_new job _ hlast (by simp) (hstatus hnew)
  | takeOut job hmem =>
      refine h.of_moved (.dequeued job) job .dequeued rfl (by simp) rfl ?_ (.refl _) ?_ ?_
      · exact fun other hne => Function.update_of_ne hne _ _
      · exact fun thread hwork => hconserved.not_holds hmem thread (hholds hwork)
      · rw [(hconserved.mem_iff job).mp hmem]
        simp
  | clear =>
      have hplace : ∀ job, lastPlace job (l.log ++ l.assignments.map Event.dequeued) =
          if job ∈ l.assignments then some .dequeued else lastPlace job l.log :=
        fun _ => lastPlace_append_dequeued _
      have hended : ∀ job, lastPlace job l.log = some .ended → job ∉ l.assignments := by
        intro job hlast hmem
        rw [(hconserved.mem_iff job).mp hmem] at hlast
        cases hlast
      refine ⟨h.ending, ?_, ?_, ?_⟩
      · intro thread job index hwork
        have hlast := h.freeing thread job index hwork
        rw [hplace, if_neg (hended job hlast), hlast]
      · intro job hlast
        rw [hplace] at hlast
        split at hlast
        · cases hlast
        · exact List.mem_append_left _ (h.final job hlast)
      · intro job status hmem
        rcases List.mem_append.mp hmem with hmem | hmem
        · obtain ⟨houtcome, thread, hassigned⟩ := h.outcome job status hmem
          exact ⟨houtcome, thread, List.mem_append_left _ hassigned⟩
        · simp at hmem
  | refuse hscan => exact h.of_same [] (by simp) (List.append_nil _).symm rfl (.refl _)
  | @assign thread job _ _ hidle hscan =>
      obtain ⟨front, back, hlist, _⟩ := State.scan_eq_some_split hscan
      have hmem : job ∈ l.assignments := by simp [hlist]
      refine h.of_moved (.assigned thread job) job (.assigned thread) rfl (by simp) rfl
        (fun _ _ => rfl) ?_ ?_ ?_
      · exact .phase _ _ (by simp) (by simp)
      · exact fun other hwork => hconserved.not_holds hmem other (hholds hwork)
      · rw [(hconserved.mem_iff job).mp hmem]
        simp
  | prepare hwork =>
      exact h.of_same [] (by simp) (List.append_nil _).symm rfl
        (.phase _ _ (by simp) (by simp))
  | begin hwork =>
      exact h.of_held hconserved ⟨_, rfl, hwork⟩ rfl (fun _ hne => Function.update_of_ne hne _ _)
        rfl (by simp) (by simp)
  | @run thread job hwork =>
      refine h.of_held hconserved ⟨_, rfl, hwork⟩ rfl
        (fun _ hne => Function.update_of_ne hne _ _) rfl (by simp) fun _ => ?_
      exact Function.update_self job (S.outcome job).status l.status
  | @finish thread job hwork =>
      have hheld : l.Holds thread job := hholds hwork
      have hstatus := h.ending thread job hwork
      refine ⟨?_, ?_, ?_, ?_⟩
      · intro other held hwork'
        by_cases hother : other = thread
        · subst hother
          simp [setWork] at hwork'
        · refine h.ending other held ?_
          simpa [setWork, record, Function.update_of_ne hother] using hwork'
      · intro other held index hwork'
        by_cases hjob : held = job
        · subst hjob
          exact lastPlace_append_self _ rfl
        · have hother : other ≠ thread := by
            rintro rfl
            simp [setWork] at hwork'
            exact hjob hwork'.1.symm
          have hlast := h.freeing other held index
            (by simpa [setWork, record, Function.update_of_ne hother] using hwork')
          exact (lastPlace_append_of_ne _ rfl hjob).trans hlast
      · intro other hlast
        by_cases hjob : other = job
        · subst hjob
          exact List.mem_append_right _ (List.mem_singleton_self _)
        · exact List.mem_append_left _
            (h.final other ((lastPlace_append_of_ne _ rfl hjob).symm.trans hlast))
      · intro other status hmem
        rcases List.mem_append.mp hmem with hmem | hmem
        · obtain ⟨houtcome, assignee, hassigned⟩ := h.outcome other status hmem
          exact ⟨houtcome, assignee, List.mem_append_left _ hassigned⟩
        · cases List.mem_singleton.mp hmem
          obtain ⟨earlier, event, later, hlog, hevent, _⟩ :=
            exists_of_lastPlace ((hconserved.holds_iff thread job).mp hheld)
          refine ⟨hstatus, thread, List.mem_append_left _ ?_⟩
          cases event with
          | assigned assignee moved =>
              cases hevent
              rw [hlog]
              exact List.mem_append_right _ List.mem_cons_self
          | _ => cases hevent
  | free hwork hpolicy =>
      refine h.of_same [] (by simp) (List.append_nil _).symm rfl (.update (by simp) ?_)
      rintro _ _ heq
      cases heq
      exact ⟨_, hwork⟩
  | freed hwork _ =>
      exact h.of_same [] (by simp) (List.append_nil _).symm rfl
        (.phase _ _ (by simp) (by simp))
  | leave hwork =>
      exact h.of_same [] (by simp) (List.append_nil _).symm rfl (.update (by simp) (by simp))
  | configure ops _ =>
      exact h.of_same [.configured ops] (by simp [Event.place?]) rfl rfl (.refl _)

omit [DecidableEq P] in
theorem endsKnown_init {T : Type*} (start : Start J P σ) :
    (init (T := T) S start).ledger.EndsKnown S := by
  refine ⟨?_, ?_, ?_, ?_⟩
  · simp [State.ledger, init, WorkerPc.work?]
  · simp [State.ledger, init, WorkerPc.work?]
  · simp [State.ledger, init]
  · simp [State.ledger, init]

end Moves

end Ledger

/-! ## Runs -/

/-- The job is at this place: in the list or with the worker, as the state has it, ended or
dequeued, as the log has it. -/
def State.At [DecidableEq J] (s : State J P T σ ε) (job : J) : Place → Prop
  | .listed => job ∈ s.assignments
  | .assigned thread => (s.worker thread).pc.job? = some job
  | .ended => lastPlace job s.log = some .ended
  | .dequeued => lastPlace job s.log = some .dequeued

theorem State.holds_ledger {s : State J P T σ ε} {thread : ℕ} {job : J} :
    s.ledger.Holds thread job ↔ (s.worker thread).pc.job? = some job := by
  unfold Ledger.Holds
  show (∃ phase : Phase, _ ∧ (s.worker thread).pc.work? = _) ↔ _
  cases (s.worker thread).pc with
  | busy held phase =>
      simp only [WorkerPc.work?, WorkerPc.job?, Option.some.injEq, Prod.mk.injEq]
      cases hphase : phase.beforeEnd with
      | false =>
          simp only [Bool.false_eq_true, if_false, iff_false, reduceCtorEq]
          rintro ⟨_, hbefore, _, rfl⟩
          rw [hphase] at hbefore
          cases hbefore
      | true => simp [hphase]
  | _ => simp [WorkerPc.work?, WorkerPc.job?]

section Runs

variable [DecidableEq J] [DecidableEq P] [DecidableEq T] {S : Setup J P σ ε} {start : Start J P σ}
  {s : State J P T σ ε}

/-- Jobs are enqueued in `Status_New` only, and the weaver is not shut down. -/
def EnqueuesNewAndKeeps (s : State J P T σ ε) (action : Act J P T ε) : Prop :=
  EnqueuesNew s action ∧ action.isShutDown = false

instance (s : State J P T σ ε) (action : Act J P T ε) :
    Decidable (EnqueuesNewAndKeeps s action) :=
  inferInstanceAs (Decidable (_ ∧ _))

/-- In a run in which jobs are enqueued in `Status_New` only, the ledger agrees with its
log. -/
theorem runs_conserved {ok : State J P T σ ε → Act J P T ε → Prop}
    (hok : ∀ s action, ok s action → EnqueuesNew s action) (hrun : Runs S ok start s) :
    s.ledger.Conserved := by
  have hmoves : Ledger.Moves S _ _ _ :=
    runs_moves (fun _ _ h => Discipline.enqueuesNew_allows (hok _ _ h)) hrun
  exact (Ledger.conserved_init start).moves trivial hmoves

omit [DecidableEq P] [DecidableEq T] in
/-- A job that was enqueued is where the log says, and nowhere else. -/
theorem Ledger.Conserved.existsUnique_at (h : s.ledger.Conserved) {job : J}
    (henqueued : .enqueued job ∈ s.log) : ∃! place, s.At job place := by
  have hat : ∀ place, s.At job place ↔ lastPlace job s.log = some place := by
    intro place
    cases place with
    | listed => exact h.mem_iff job
    | assigned thread => exact State.holds_ledger.symm.trans (h.holds_iff thread job)
    | ended | dequeued => exact Iff.rfl
  have hplace : lastPlace job s.log ≠ none :=
    lastPlace_ne_none .listed henqueued rfl
  obtain ⟨place, hlast⟩ := Option.ne_none_iff_exists'.mp hplace
  refine ⟨place, (hat place).mpr hlast, fun other hother => ?_⟩
  have hlast' := (hat other).mp hother
  rw [hlast, Option.some.injEq] at hlast'
  exact hlast'.symm

omit [DecidableEq P] [DecidableEq T] in
/-- Every assignment of a job is preceded by an enqueueing of its own. -/
theorem Ledger.Conserved.enqueued_before (h : s.ledger.Conserved)
    {before after : List (Event J P ε)} {thread : ℕ} {job : J}
    (hlog : s.log = before ++ .assigned thread job :: after) :
    ∃ earlier between, before = earlier ++ .enqueued job :: between ∧
      ∀ other, .assigned other job ∉ between := by
  obtain ⟨earlier, event, between, rfl, hevent, hbetween⟩ :=
    exists_of_lastPlace (h.assignedFromList before after thread job hlog)
  cases event with
  | enqueued moved =>
      cases hevent
      exact ⟨earlier, between, rfl, fun other hmem => hbetween _ hmem (.assigned other) rfl⟩
  | _ => cases hevent

omit [DecidableEq P] [DecidableEq T] in
/-- `dequeue_p` returns if the job is in the list. -/
theorem dequeueP_fst (job : J) : (s.dequeueP S job).1 = true ↔ job ∈ s.assignments := by
  unfold State.dequeueP State.dequeueNested
  split <;> simp [*]

omit [DecidableEq P] [DecidableEq T] in
/-- The last thing `dequeue_p` does to a job in the list is to take it out. -/
theorem dequeueP_log {job : J} (hmem : job ∈ s.assignments) :
    ∃ log, (s.dequeueP S job).2.log = log ++ [.dequeued job] := by
  unfold State.dequeueP State.dequeueNested
  rw [if_pos hmem]
  exact ⟨_, rfl⟩

/-- **No job is lost, duplicated or run after it was dequeued.** -/
theorem conservation (hrun : Runs S EnqueuesNewAndKeeps start s) :
    s.assignments.Nodup ∧
    (∀ job, .enqueued job ∈ s.log → ∃! place, s.At job place) ∧
    (∀ before after thread job, s.log = before ++ .assigned thread job :: after →
      ∃ earlier between, before = earlier ++ .enqueued job :: between ∧
        ∀ other, .assigned other job ∉ between) ∧
    (∀ job, (s.dequeue S job).1 = true ↔ job ∈ s.assignments) ∧
    ∀ job next last more, (s.dequeue S job).1 = true → step S s (.dequeue job) = some next →
      Library.RunWhere (step S) EnqueuesNewAndKeeps next last → last.log = next.log ++ more →
      .enqueued job ∉ more → ∀ thread, .assigned thread job ∉ more := by
  have hconserved := runs_conserved (fun _ _ h => h.1) hrun
  have husable := runs_usable (fun _ _ h => h.2) hrun
  have hdequeue : ∀ job, s.dequeue S job = s.dequeueP S job :=
    fun _ => if_neg husable.not_destructed
  refine ⟨hconserved.nodup, fun _ => hconserved.existsUnique_at,
    fun _ _ _ _ => hconserved.enqueued_before, ?_, ?_⟩
  · intro job
    rw [hdequeue]
    exact dequeueP_fst job
  · intro job next last more hresult hstep hlast hlog hmore thread hassigned
    have hmem : job ∈ s.assignments := by
      rw [hdequeue] at hresult
      exact (dequeueP_fst job).mp hresult
    have hnext : Runs S EnqueuesNewAndKeeps start next :=
      hrun.tail ⟨by simp [EnqueuesNew, Act.batch?], rfl⟩ hstep
    -- the job is out of the list
    have hout : lastPlace job next.log = some .dequeued := by
      obtain ⟨log, hdequeued⟩ := dequeueP_log (S := S) hmem
      rw [← Option.some.inj hstep, hdequeue, hdequeued]
      exact lastPlace_append_self _ rfl
    -- so an assignment has to follow another enqueueing
    obtain ⟨before, after, rfl⟩ := List.append_of_mem hassigned
    have hlisted := (runs_conserved (fun _ _ h => h.1) (hnext.trans hlast)).assignedFromList
      (next.log ++ before) after thread job (by rw [List.append_assoc]; exact hlog)
    have hbefore : .enqueued job ∉ before := fun h => hmore (List.mem_append_left _ h)
    rw [listed_of_append hbefore hlisted] at hout
    cases hout

end Runs

/-- Of two jobs one is assigned; the other is dequeued, enqueued again and still in the
list. -/
theorem conservation_two_jobs :
    ∃ s : State ℕ Unit Unit (Unit → ℕ) Empty, .enqueued 0 ∈ s.log ∧ .assigned 0 1 ∈ s.log ∧
      s.assignments.Nodup ∧ (∃! place, s.At 0 place) ∧ ∃! place, s.At 1 place := by
  obtain ⟨s, hrun, hlog⟩ : ∃ s : State ℕ Unit Unit (Unit → ℕ) Empty,
      Runs numbered EnqueuesNewAndKeeps (.plain fun _ => 0) s ∧ _ :=
    Library.exists_runWhere
      (fun s => .enqueued 0 ∈ s.log ∧ .enqueued 1 ∈ s.log ∧ .assigned 0 1 ∈ s.log)
      [.enqueue [some 0, none, some 1], .dequeue 0, .enqueue [some 0], .worker 0, .worker 0,
        .worker 0] (by decide)
  obtain ⟨hnodup, hplaces, _⟩ := conservation hrun
  exact ⟨s, hlog.1, hlog.2.2, hnodup, hplaces 0 hlog.1, hplaces 1 hlog.2.1⟩

end ThreadWeaver.Weaver
