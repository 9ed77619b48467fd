import ThreadWeaver.Collection.Sound

/-!
# History

What the log says about a job agrees with how far the job has got: a job that has been
assigned or started is past the queue for good, and its end is recorded exactly once.
-/

namespace ThreadWeaver.Collection

variable {J P T σ : Type*}

namespace Place

/-- `Job::execute` has been called. -/
def isStarted : Place T → Bool
  | held .executing _ | held .closing _ | held .ending _ | held .reporting _ | waiting
  | reported => true
  | _ => false

/-- The job has been handed to a worker. -/
def isAssigned (place : Place T) : Bool :=
  match place with
  | held .assigned _ => true
  | _ => place.isStarted

/-- The default end has run. -/
def isEnded : Place T → Bool
  | held .reporting _ | reported => true
  | _ => false

theorem isOver_of_isEnded {place : Place T} (h : place.isEnded = true) : place.isOver = true := by
  cases place with
  | held stage thread => cases stage <;> first | rfl | cases h
  | reported => rfl
  | _ => cases h

theorem isStarted_of_isLate {place : Place T} (h : place.isLate = true) :
    place.isStarted = true := by
  cases place with
  | held stage thread => cases stage <;> first | rfl | cases h
  | waiting | reported => rfl
  | _ => cases h

theorem isAssigned_of_isStarted {place : Place T} (h : place.isStarted = true) :
    place.isAssigned = true := by
  cases place with
  | held stage thread => cases stage <;> first | rfl | cases h
  | waiting | reported => rfl
  | _ => cases h

end Place

/-- The event is the end of the job. -/
def Event.isEndOf [DecidableEq J] (job : J) : Event J T → Bool
  | ended other _ => other = job
  | _ => false

namespace Books

variable [DecidableEq J] {F : Forest J P σ} {b b' : Books J T} {D : Discipline J T}

/-- How often the end of the job has run. -/
def ends (job : J) (b : Books J T) : ℕ :=
  b.log.countP (Event.isEndOf job)

/-- The log agrees with the places. -/
structure Recorded (b : Books J T) : Prop where
  assigned : ∀ job thread, .assigned thread job ∈ b.log → (b.place job).isAssigned = true
  started : ∀ job, .started job ∈ b.log → (b.place job).isStarted = true
  ends : ∀ job, b.ends job = (b.place job).isEnded.toNat

/-- The places at which a job has ended are those of the jobs whose end is recorded. -/
theorem Recorded.isEnded_iff (hb : b.Recorded) {job : J} :
    (b.place job).isEnded = true ↔ ∃ status, .ended job status ∈ b.log := by
  have hends := hb.ends job
  constructor
  · intro hended
    rw [hended] at hends
    have hpositive : 0 < b.ends job := by
      rw [hends]
      exact Nat.one_pos
    obtain ⟨event, hmem, hevent⟩ := List.countP_pos_iff.mp hpositive
    cases event with
    | ended other status =>
        obtain rfl : other = job := by simpa [Event.isEndOf] using hevent
        exact ⟨status, hmem⟩
    | _ => cases hevent
  · rintro ⟨status, hmem⟩
    have hpositive : 0 < b.ends job :=
      List.countP_pos_iff.mpr ⟨_, hmem, by simp [Event.isEndOf]⟩
    rw [hends] at hpositive
    cases hended : (b.place job).isEnded with
    | true => rfl
    | false =>
        rw [hended] at hpositive
        exact absurd hpositive (lt_irrefl 0)

/-- What a log and a place that change together have to satisfy. -/
theorem Recorded.of_places {place : J → Place T} {opened : J → Bool} {counter : J → ℤ}
    {events : List (Event J T)} (hb : b.Recorded)
    (hassigned : ∀ job, (b.place job).isAssigned = true ∨
      (∃ thread, .assigned thread job ∈ events) → (place job).isAssigned = true)
    (hstarted : ∀ job, (b.place job).isStarted = true ∨ .started job ∈ events →
      (place job).isStarted = true)
    (hended : ∀ job, events.countP (Event.isEndOf job) + (b.place job).isEnded.toNat =
      (place job).isEnded.toNat) :
    Recorded (⟨place, opened, counter, b.log ++ events⟩ : Books J T) := by
  refine ⟨?_, ?_, ?_⟩
  · intro job thread hmem
    rcases List.mem_append.mp hmem with hold | hnew
    · exact hassigned job (.inl (hb.assigned job thread hold))
    · exact hassigned job (.inr ⟨thread, hnew⟩)
  · intro job hmem
    rcases List.mem_append.mp hmem with hold | hnew
    · exact hstarted job (.inl (hb.started job hold))
    · exact hstarted job (.inr hnew)
  · intro job
    have hbefore := hb.ends job
    have hafter := hended job
    simp only [Books.ends, List.countP_append] at hbefore ⊢
    omega

/-- Places that only go on, with nothing recorded about a job. -/
theorem Recorded.of_same {place : J → Place T} {opened : J → Bool} {counter : J → ℤ}
    {events : List (Event J T)} (hb : b.Recorded)
    (hplace : ∀ job, place job = b.place job ∨
      ((b.place job).isAssigned = true → (place job).isAssigned = true) ∧
        ((b.place job).isStarted = true → (place job).isStarted = true) ∧
        (place job).isEnded = (b.place job).isEnded)
    (hevents : ∀ event ∈ events, ∀ job, (∀ thread, event ≠ .assigned thread job) ∧
      event ≠ .started job ∧ event.isEndOf job = false) :
    Recorded (⟨place, opened, counter, b.log ++ events⟩ : Books J T) := by
  refine hb.of_places ?_ ?_ ?_
  · rintro job (hold | ⟨thread, hnew⟩)
    · rcases hplace job with heq | hgo
      · rwa [heq]
      · exact hgo.1 hold
    · exact absurd rfl ((hevents _ hnew job).1 thread)
  · rintro job (hold | hnew)
    · rcases hplace job with heq | hgo
      · rwa [heq]
      · exact hgo.2.1 hold
    · exact absurd rfl (hevents _ hnew job).2.1
  · intro job
    have hnone : events.countP (Event.isEndOf job) = 0 :=
      List.countP_eq_zero.mpr fun event hmem => by simp [(hevents event hmem job).2.2]
    rcases hplace job with heq | hgo
    · rw [heq, hnone, Nat.zero_add]
    · rw [hgo.2.2, hnone, Nat.zero_add]

theorem Goes.recorded {job : J} {before place : Place T} {events : List (Event J T)}
    (h : Goes F job before place events) :
    (before.isAssigned = true ∨ (∃ thread, .assigned thread job ∈ events) →
        place.isAssigned = true) ∧
      (before.isStarted = true ∨ .started job ∈ events → place.isStarted = true) ∧
      events.countP (Event.isEndOf job) + before.isEnded.toNat = place.isEnded.toNat ∧
      ∀ other, other ≠ job → (∀ thread, .assigned thread other ∉ events) ∧
        .started other ∉ events ∧ events.countP (Event.isEndOf other) = 0 := by
  cases h <;> simp_all [Place.isAssigned, Place.isStarted, Place.isEnded, Event.isEndOf,
    eq_comm]

theorem Recorded.goTo {job : J} {place : Place T} {events : List (Event J T)}
    (hb : b.Recorded) (hgoes : Goes F job (b.place job) place events) :
    (b.goTo job place events).Recorded := by
  obtain ⟨hassigned, hstarted, hended, hothers⟩ := hgoes.recorded
  refine hb.of_places ?_ ?_ ?_
  · intro other
    by_cases heq : other = job
    · subst heq
      simpa only [Function.update_self] using hassigned
    · rw [Function.update_of_ne heq]
      rintro (hold | ⟨thread, hnew⟩)
      · exact hold
      · exact absurd hnew ((hothers other heq).1 thread)
  · intro other
    by_cases heq : other = job
    · subst heq
      simpa only [Function.update_self] using hstarted
    · rw [Function.update_of_ne heq]
      rintro (hold | hnew)
      · exact hold
      · exact absurd hnew (hothers other heq).2.1
  · intro other
    by_cases heq : other = job
    · subst heq
      simpa only [Function.update_self] using hended
    · rw [Function.update_of_ne heq, (hothers other heq).2.2, Nat.zero_add]

/-- A job that is counted off keeps what is recorded about it. -/
theorem Recorded.countOff {collection job : J} {place : Place T} (hb : b.Recorded)
    (hassigned : (b.place job).isAssigned = true → place.isAssigned = true)
    (hstarted : (b.place job).isStarted = true → place.isStarted = true)
    (hended : place.isEnded = (b.place job).isEnded) :
    (b.countOff collection job place).Recorded := by
  have hlog : b.countOff collection job place =
      ⟨Function.update b.place job place, b.opened,
        Function.update b.jobCounter collection (b.jobCounter collection - 1),
        b.log ++ []⟩ := by
    simp [Books.countOff]
  rw [hlog]
  refine hb.of_same (fun other => ?_) (by simp)
  by_cases heq : other = job
  · subst heq
    refine .inr ?_
    rw [Function.update_self]
    exact ⟨hassigned, hstarted, hended⟩
  · exact .inl (Function.update_of_ne heq _ _)

theorem Recorded.toEnding {collection : J} {thread : Thread T} (hb : b.Recorded)
    (hplace : b.place collection = .waiting) :
    (b.goTo collection (.held .ending thread) [.cleanedUp collection]).Recorded := by
  refine hb.of_same (fun other => ?_) (by simp [Event.isEndOf])
  by_cases heq : other = collection
  · subst heq
    refine .inr ?_
    rw [Function.update_self, hplace]
    simp [Place.isAssigned, Place.isStarted, Place.isEnded]
  · exact .inl (Function.update_of_ne heq _ _)

/-- **The log goes with the places.** -/
theorem Recorded.move (hb : b.Recorded) (hlawful : b.Lawful F) (h : Move F D b b') :
    b'.Recorded := by
  cases h with
  | goes hgoes _ => exact hb.goTo hgoes
  | @takeUp thread jobs hjobs =>
      rw [← List.append_nil b.log]
      refine hb.of_same (fun job => ?_) (by simp)
      by_cases hmem : job ∈ jobs
      · refine .inr ?_
        rw [if_pos hmem, (hjobs job hmem).2]
        simp [Place.isAssigned, Place.isStarted, Place.isEnded]
      · exact .inl (if_neg hmem)
  | @openElements thread collection _ hplace =>
      have hunopened : b.opened collection = false := by
        refine hlawful.not_opened ?_
        rw [hplace]
        rfl
      have hlog : b.openElements F thread collection =
          ⟨(b.openElements F thread collection).place, (b.openElements F thread collection).opened,
            (b.openElements F thread collection).jobCounter, b.log ++ []⟩ := by
        simp [openElements]
      rw [hlog]
      refine hb.of_same (fun job => ?_) (by simp)
      by_cases hmem : job ∈ F.elements collection
      · have hfresh := (hlawful.fresh _ _ ((F.mem_elements _ _).mp hmem)).mpr hunopened
        refine .inr ?_
        simp [openElements, hmem, hfresh, Place.isAssigned, Place.isStarted, Place.isEnded]
      · by_cases heq : job = collection
        · subst heq
          refine .inr ?_
          simp [openElements, hmem, hplace, Place.isAssigned, Place.isStarted, Place.isEnded]
        · refine .inl ?_
          simp [openElements, hmem, heq]
  | countSelf hplace _ =>
      apply hb.countOff <;> simp [hplace, Place.isAssigned, Place.isStarted, Place.isEnded]
  | countElement _ hplace _ =>
      apply hb.countOff <;> simp [hplace, Place.isAssigned, Place.isStarted, Place.isEnded]
  | endSelf hplace _ =>
      refine toEnding ?_ (by simp [Books.countOff])
      apply hb.countOff <;> simp [hplace, Place.isAssigned, Place.isStarted, Place.isEnded]
  | @endElement thread collection job hparent hplace hlast =>
      have hne := (F.ne_of_parent hparent).symm
      have hwaiting := hlawful.waiting_of_last hparent (by simp [hplace, Place.isCounted])
        (by simp [hplace]) (by omega)
      refine toEnding ?_ (by simpa [Books.countOff, Function.update_of_ne hne] using hwaiting)
      apply hb.countOff <;> simp [hplace, Place.isAssigned, Place.isStarted, Place.isEnded]
  | discount _ hplace _ =>
      apply hb.countOff <;> simp [hplace, Place.isAssigned, Place.isStarted, Place.isEnded]
  | cleanUp _ _ => exact hb.of_same (fun _ => .inl rfl) (by simp [Event.isEndOf])
  | finished => exact hb.of_same (fun _ => .inl rfl) (by simp [Event.isEndOf])
  | finishReturned _ => exact hb.of_same (fun _ => .inl rfl) (by simp [Event.isEndOf])

end Books

section Runs

variable [DecidableEq J] [DecidableEq P] [DecidableEq T] {F : Forest J P σ}
  {s : State J P T σ}

/-- **In every state of every run the log agrees with the places.** -/
theorem runs_recorded {ok : State J P T σ → Act J T → Prop} {start : Weaver.Start J P σ}
    (run : Runs F ok start s) : s.data.books.Recorded := by
  refine runs_books (D := .any) run ?_ (fun _ _ _ _ op _ => Books.Discipline.any_covers _ op)
    fun b b' hlawful hb hmove => hb.move hlawful hmove
  refine ⟨?_, ?_, ?_⟩ <;>
    simp [init, Data.books, Books.ends, Place.isEnded]

end Runs

end ThreadWeaver.Collection
