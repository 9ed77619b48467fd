import ThreadWeaver.Collection.History
import ThreadWeaver.Collection.Inversion
import ThreadWeaver.DependencyPolicy
import ThreadWeaver.Library.History

/-!
# Release

`finalCleanup` frees the queue policies of a collection and so resolves the dependencies of
the jobs that depend on it.  The collection itself cleans up with its last element.  The
test `jobCounter == 1` at the end of `dequeueElements` is meant for a Sequence that stops
itself while it completes an element, which is then the one that is left; a stop from
outside can meet the same counter while the one element that is left is still executed.

`not_released_early` says that without such a stop no collection is released before the
elements that have been assigned have ended, and no job that depends on it is assigned.
-/

namespace ThreadWeaver.Collection

open Library (Ordered)

variable {J P T σ : Type*}

namespace Place

/-- The end of the job has run, or it will not be executed any more. -/
def isPast : Place T → Bool
  | held .reporting _ | held .taken _ | held .leaving _ | reported | discounted | lost => true
  | _ => false

end Place

namespace Books

variable [DecidableEq J] (F : Forest J P σ)

/-- Nothing of the collection is still to be executed or in execution. -/
def AllPast (collection : J) (b : Books J T) : Prop :=
  ∀ element, F.parent element = some collection → (b.place element).isPast = true

/-- `dequeueElements` cleans up only when nothing is left. -/
def cleansUpLate : Discipline J T where
  mayClose _ := True
  mayLeave _ := True
  mayDiscount _ _ _ := True
  mayCleanUp b collection := b.AllPast F collection

/-- The elements of a collection that has been cleaned up have ended if they have been
assigned. -/
def EndedBefore (before : List (Event J T)) (collection : J) : Prop :=
  ∀ element, F.parent element = some collection →
    (∃ thread, .assigned thread element ∈ before) → ∃ status, .ended element status ∈ before

/-- Collections are cleaned up after their elements. -/
structure Released (b : Books J T) : Prop where
  ordered : Ordered (fun before event =>
    ∀ collection, event = .cleanedUp collection → EndedBefore F before collection) b.log
  past : ∀ collection, .cleanedUp collection ∈ b.log → b.AllPast F collection
  isOver : ∀ collection, F.kind collection ≠ .plain → (b.place collection).isOver = true →
    .cleanedUp collection ∈ b.log

variable {F} {b b' : Books J T} {collection job : J}

theorem Recorded.ended_of_past (hb : b.Recorded) (hpast : (b.place job).isPast = true)
    {thread : Thread T} (hassigned : .assigned thread job ∈ b.log) :
    ∃ status, .ended job status ∈ b.log := by
  refine hb.isEnded_iff.mp ?_
  have hplace := hb.assigned job thread hassigned
  cases h : b.place job with
  | held stage other =>
      rw [h] at hpast hplace
      cases stage <;> simp_all [Place.isPast, Place.isAssigned, Place.isStarted, Place.isEnded]
  | reported => rfl
  | _ => simp_all [Place.isPast, Place.isAssigned, Place.isStarted]

theorem Recorded.endedBefore (hb : b.Recorded) (hpast : b.AllPast F collection) :
    EndedBefore F b.log collection := by
  rintro element hparent ⟨thread, hassigned⟩
  exact hb.ended_of_past (hpast element hparent) hassigned

omit [DecidableEq J] in
theorem allPast_of_zero (hzero : b.outstanding F collection = 0) : b.AllPast F collection := by
  intro element hparent
  have hcounted : (b.place element).isCounted = true := by
    by_contra hnot
    have hpos := outstanding_pos hparent (by simpa using hnot)
    omega
  cases h : b.place element <;> simp_all [Place.isCounted, Place.isPast]

/-- When one element is outstanding and has ended, all others are past. -/
theorem Lawful.allPast_of_one (hb : b.Lawful F) (hparent : F.parent job = some collection)
    {thread : Thread T} (hplace : b.place job = .held .reporting thread)
    (hone : b.jobCounter collection = 1) : b.AllPast F collection := by
  have hcounted : (b.place job).isCounted = false := by simp [hplace, Place.isCounted]
  have hopened := hb.opened_of_ne_fresh hparent (by simp [hplace])
  have hwaiting := hb.waiting_of_last hparent hcounted (by simp [hplace]) hone
  have hcounter := hb.counter collection hopened
  rw [hwaiting] at hcounter
  simp only [Place.isClosing, Bool.toNat_false] at hcounter
  have hafter : ((b.countOff collection job .reported).outstanding F collection : ℤ) =
      b.outstanding F collection - 1 := outstanding_update hparent hcounted rfl
  have hothers : (b.countOff collection job .reported).AllPast F collection :=
    allPast_of_zero (by omega)
  intro element helement
  by_cases heq : element = job
  · rw [heq, hplace]
    rfl
  · have hsame : (b.countOff collection job .reported).place element = b.place element :=
      Function.update_of_ne heq _ _
    rw [← hsame]
    exact hothers element helement

omit [DecidableEq J] in
theorem Lawful.allPast_of_closing (hb : b.Lawful F) {thread : Thread T}
    (hplace : b.place collection = .held .closing thread) (hone : b.jobCounter collection = 1) :
    b.AllPast F collection := by
  have hopened : b.opened collection = true := by
    by_contra hnot
    have hle := hb.unopened collection (by simpa using hnot)
    omega
  have hcounter := hb.counter collection hopened
  rw [hplace] at hcounter
  simp only [Place.isClosing, Bool.toNat_true] at hcounter
  exact allPast_of_zero (by omega)

/-! ### Moves -/

omit [DecidableEq J] in
/-- Jobs that are past stay so, and no collection is cleaned up. -/
theorem Released.of_places (hb : b.Released F) {place : J → Place T} {opened : J → Bool}
    {counter : J → ℤ} {events : List (Event J T)}
    (hpast : ∀ element owner, F.parent element = some owner →
      (b.place element).isPast = true → (place element).isPast = true)
    (hover : ∀ owner, F.kind owner ≠ .plain → (place owner).isOver = true →
      (b.place owner).isOver = true)
    (hevents : ∀ event ∈ events, ∀ owner, event ≠ .cleanedUp owner) :
    Released F (⟨place, opened, counter, b.log ++ events⟩ : Books J T) := by
  refine ⟨?_, ?_, ?_⟩
  · exact hb.ordered.append_of_forall fun event hmem _ owner heq =>
      absurd heq (hevents event hmem owner)
  · intro owner hmem element hparent
    rcases List.mem_append.mp hmem with hold | hnew
    · exact hpast element owner hparent (hb.past owner hold element hparent)
    · exact absurd rfl (hevents _ hnew owner)
  · intro owner hkind hafter
    exact List.mem_append_left _ (hb.isOver owner hkind (hover owner hkind hafter))

/-- A collection is cleaned up when nothing is left. -/
theorem Released.cleanUp (hb : b.Released F) (hrecorded : b.Recorded)
    (hleft : b.AllPast F collection) {place : J → Place T} {opened : J → Bool} {counter : J → ℤ}
    (hpast : ∀ element owner, F.parent element = some owner →
      (b.place element).isPast = true → (place element).isPast = true)
    (hover : ∀ owner, owner ≠ collection → F.kind owner ≠ .plain →
      (place owner).isOver = true → (b.place owner).isOver = true) :
    Released F (⟨place, opened, counter, b.log ++ [.cleanedUp collection]⟩ : Books J T) := by
  refine ⟨?_, ?_, ?_⟩
  · refine hb.ordered.concat fun owner heq => ?_
    cases heq
    exact hrecorded.endedBefore hleft
  · intro owner hmem element hparent
    refine hpast element owner hparent ?_
    rcases List.mem_append.mp hmem with hold | hnew
    · exact hb.past owner hold element hparent
    · cases List.mem_singleton.mp hnew
      exact hleft element hparent
  · intro owner hkind hafter
    by_cases heq : owner = collection
    · subst heq
      exact List.mem_append_right _ List.mem_cons_self
    · exact List.mem_append_left _ (hb.isOver owner hkind (hover owner heq hkind hafter))

omit [DecidableEq J] in
theorem Goes.released {before place : Place T} {events : List (Event J T)}
    (h : Goes F job before place events) :
    (∀ owner, F.parent job = some owner → before.isPast = true → place.isPast = true) ∧
      (F.kind job ≠ .plain → place.isOver = true → before.isOver = true) ∧
      ∀ event ∈ events, ∀ owner, event ≠ .cleanedUp owner := by
  cases h <;> simp_all [Place.isPast, Place.isOver]

/-- A job is counted off. -/
theorem Released.countOff {owner : J} {place : Place T} (hb : b.Released F)
    (hpast : (b.place job).isPast = true → place.isPast = true)
    (hover : place.isOver = true → (b.place job).isOver = true) :
    (b.countOff owner job place).Released F := by
  have hbooks : b.countOff owner job place =
      ⟨Function.update b.place job place, b.opened,
        Function.update b.jobCounter owner (b.jobCounter owner - 1), b.log ++ []⟩ := by
    simp [Books.countOff]
  rw [hbooks]
  refine hb.of_places (fun element _ _ hbefore => ?_) (fun other _ hafter => ?_) (by simp)
  · by_cases heq : element = job
    · subst heq
      rw [Function.update_self]
      exact hpast hbefore
    · rwa [Function.update_of_ne heq]
  · by_cases heq : other = job
    · subst heq
      rw [Function.update_self] at hafter
      exact hover hafter
    · rwa [Function.update_of_ne heq] at hafter

theorem Released.toEnding {thread : Thread T} (hb : b.Released F) (hrecorded : b.Recorded)
    (hplace : b.place collection = .waiting) (hleft : b.AllPast F collection) :
    (b.goTo collection (.held .ending thread) [.cleanedUp collection]).Released F := by
  refine hb.cleanUp hrecorded hleft (fun element owner _ hbefore => ?_) fun owner hne _ hafter => ?_
  · by_cases heq : element = collection
    · subst heq
      rw [hplace] at hbefore
      cases hbefore
    · rwa [Function.update_of_ne heq]
  · rwa [Function.update_of_ne hne] at hafter

/-- **No move releases a collection early**, if `dequeueElements` does not. -/
theorem Released.move (hb : b.Released F) (hlawful : b.Lawful F) (hrecorded : b.Recorded)
    (h : Move F (cleansUpLate F) b b') : b'.Released F := by
  have hrecorded' := hrecorded.move hlawful h
  have hlawful' := hlawful.move h
  cases h with
  | @goes job place events hgoes _ =>
      obtain ⟨hpast, hover, hevents⟩ := hgoes.released
      refine hb.of_places (fun element owner hparent hbefore => ?_)
        (fun other hkind hafter => ?_) hevents
      · by_cases heq : element = job
        · subst heq
          rw [Function.update_self]
          exact hpast owner hparent hbefore
        · rwa [Function.update_of_ne heq]
      · by_cases heq : other = job
        · subst heq
          rw [Function.update_self] at hafter
          exact hover hkind hafter
        · rwa [Function.update_of_ne heq] at hafter
  | @takeUp thread jobs hjobs =>
      rw [← List.append_nil b.log]
      refine hb.of_places (fun element owner hparent hbefore => ?_)
        (fun other _ hafter => ?_) (by simp)
      · have hnot : element ∉ jobs := by
          intro hmem
          rw [(hjobs element hmem).1] at hparent
          cases hparent
        rwa [if_neg hnot]
      · split at hafter
        · cases hafter
        · exact hafter
  | @openElements thread owner _ hplace =>
      have hunopened : b.opened owner = false := by
        refine hlawful.not_opened ?_
        rw [hplace]
        rfl
      have hbooks : b.openElements F thread owner =
          ⟨(b.openElements F thread owner).place, (b.openElements F thread owner).opened,
            (b.openElements F thread owner).jobCounter, b.log ++ []⟩ := by
        simp [Books.openElements]
      rw [hbooks]
      refine hb.of_places (fun element _ _ hbefore => ?_) (fun other _ hafter => ?_) (by simp)
      · have hnot : element ∉ F.elements owner := by
          intro hmem
          rw [(hlawful.fresh _ _ ((F.mem_elements _ _).mp hmem)).mpr hunopened] at hbefore
          cases hbefore
        have hne : element ≠ owner := by
          rintro rfl
          rw [hplace] at hbefore
          cases hbefore
        simpa only [Books.openElements, if_neg hnot, Function.update_of_ne hne] using hbefore
      · simp only [Books.openElements] at hafter
        split at hafter
        · cases hafter
        · by_cases heq : other = owner
          · subst heq
            simp [Place.isOver] at hafter
          · rwa [Function.update_of_ne heq] at hafter
  | countSelf hplace _ => apply hb.countOff <;> simp [hplace, Place.isPast, Place.isOver]
  | countElement _ hplace _ => apply hb.countOff <;> simp [hplace, Place.isPast, Place.isOver]
  | discount _ hplace _ => apply hb.countOff <;> simp [hplace, Place.isPast, Place.isOver]
  | @endSelf thread owner hplace hlast =>
      have hleft := hlawful.allPast_of_closing hplace (by omega)
      refine Released.toEnding ?_ ?_ (by simp [Books.countOff]) ?_
      · apply hb.countOff <;> simp [hplace, Place.isPast, Place.isOver]
      · apply hrecorded.countOff <;>
          simp [hplace, Place.isAssigned, Place.isStarted, Place.isEnded]
      · intro element hparent
        simpa only [Books.countOff, Function.update_of_ne (F.ne_of_parent hparent)] using
          hleft element hparent
  | @endElement thread owner job hparent hplace hlast =>
      have hleft := hlawful.allPast_of_one hparent hplace (by omega)
      have hne := (F.ne_of_parent hparent).symm
      have hwaiting := hlawful.waiting_of_last hparent (by simp [hplace, Place.isCounted])
        (by simp [hplace]) (by omega)
      refine Released.toEnding ?_ ?_
        (by simpa [Books.countOff, Function.update_of_ne hne] using hwaiting) ?_
      · apply hb.countOff <;> simp [hplace, Place.isPast, Place.isOver]
      · apply hrecorded.countOff <;>
          simp [hplace, Place.isAssigned, Place.isStarted, Place.isEnded]
      · intro element helement
        by_cases heq : element = job
        · subst heq
          simp [Books.countOff, Place.isPast]
        · simpa only [Books.countOff, Function.update_of_ne heq] using hleft element helement
  | cleanUp _ hleft =>
      exact hb.cleanUp hrecorded hleft (fun _ _ _ => id) fun _ _ _ => id
  | finished => exact hb.of_places (fun _ _ _ => id) (fun _ _ => id) (by simp)
  | finishReturned _ => exact hb.of_places (fun _ _ _ => id) (fun _ _ => id) (by simp)

end Books

/-! ## Runs -/

/-- The thread will restore the status of the Sequence, which stops itself while it
completes a job. -/
def Op.restores [DecidableEq J] (collection : J) : Op J → Bool
  | restoreStatus other _ _ => other = collection
  | _ => false

/-- At the end of `dequeueElements` the counter is one, but the thread is not completing a
job of the collection, and something of the collection is left. -/
def State.releasesEarly [DecidableEq J] (F : Forest J P σ) (s : State J P T σ)
    (thread : Thread T) : Op J → Bool
  | .checkLast collection =>
      s.data.jobCounter collection = 1 ∧
        (∀ op ∈ s.stack thread, op.restores collection = false) ∧
        ∃ element ∈ F.elements collection, (s.data.place element).isPast = false
  | _ => false

/-- The step does not release a collection early. -/
def NotReleasedEarly [DecidableEq J] (F : Forest J P σ) (s : State J P T σ) (act : Act J T) :
    Prop :=
  ∀ op ∈ s.nextOp act, s.releasesEarly F act.thread op = false

instance [DecidableEq J] (F : Forest J P σ) (s : State J P T σ) (act : Act J T) :
    Decidable (NotReleasedEarly F s act) :=
  inferInstanceAs (Decidable (∀ op ∈ s.nextOp act, s.releasesEarly F act.thread op = false))

section Runs

variable [DecidableEq J] {F : Forest J P σ} {s next : State J P T σ} {collection : J}

theorem State.Sound.allPast_of_restores (hs : s.Sound F) {thread : Thread T} {op : Op J}
    (hop : op ∈ s.stack thread) (hrestores : op.restores collection = true)
    (hone : s.data.jobCounter collection = 1) : s.data.books.AllPast F collection := by
  cases op with
  | restoreStatus other job status =>
      obtain rfl : other = collection := by simpa [Op.restores] using hrestores
      rcases hs.of_completing hop (fun _ => Iff.rfl) rfl with
        ⟨rfl, -, hplace⟩ | ⟨hparent, -, hplace⟩
      · exact hs.books.allPast_of_closing hplace hone
      · exact hs.books.allPast_of_one hparent hplace hone
  | _ => cases hrestores

theorem State.Sound.cleansUpLate_covers (hs : s.Sound F) {thread : Thread T} {op : Op J}
    (hlate : s.releasesEarly F thread op = false) :
    (Books.cleansUpLate F : Books.Discipline J T).Covers s.data op := by
  cases op with
  | checkLast collection =>
      intro hone
      by_cases hrestores : ∃ below ∈ s.stack thread, below.restores collection = true
      · obtain ⟨below, hbelow, hrestores⟩ := hrestores
        exact hs.allPast_of_restores hbelow hrestores hone
      · intro element hparent
        by_contra hnot
        have helement := (F.mem_elements _ _).mpr hparent
        simp only [State.releasesEarly, decide_eq_false_iff_not] at hlate
        refine hlate ⟨hone, fun below hbelow => ?_, element, helement,
          Bool.eq_false_of_not_eq_true hnot⟩
        by_contra hyes
        exact hrestores ⟨below, hbelow, by simpa using hyes⟩
  | elementFinished other job => exact fun _ _ => trivial
  | dequeueSelf other => exact fun _ => trivial
  | _ => trivial

variable [DecidableEq P] [DecidableEq T]

theorem runs_released {start : Weaver.Start J P σ} (run : Runs F (NotReleasedEarly F) start s) :
    s.data.books.Released F := by
  refine (runs_books (D := Books.cleansUpLate F)
    (I := fun b => b.Recorded ∧ b.Released F) run ⟨?_, ?_⟩ ?_ ?_).2
  · refine ⟨?_, ?_, ?_⟩ <;> simp [init, Data.books, Books.ends, Place.isEnded]
  · refine ⟨Ordered.nil, ?_, ?_⟩ <;> simp [init, Data.books, Place.isOver]
  · exact fun state act hrun hok op hop => (runs_sound hrun).cleansUpLate_covers (hok op hop)
  · exact fun b b' hlawful hb hmove =>
      ⟨hb.1.move hlawful hmove, hb.2.move hlawful hb.1 hmove⟩

end Runs

/-! ## Dependents -/

/-- The program uses `DependencyPolicy` besides its own policies. -/
def Forest.addDependencyPolicy [DecidableEq J] (F : Forest J P σ) :
    Forest J (Option P) (Dependencies J × σ) :=
  { F with policies := withDependencies F.policies }

/-- The program has declared that a job depends on another one. -/
def Depends (start : Weaver.Start J (Option P) (Dependencies J × σ)) (dependent dependee : J) :
    Prop :=
  none ∈ start.queuePolicies dependent ∧ (dependent, dependee) ∈ start.policyState.1

section Dependents

variable [DecidableEq J] {F : Forest J P σ} {d : Data J (Option P) T (Dependencies J × σ)}
  {job dependee : J}

theorem askPolicies_map : (d.askPolicies F.addDependencyPolicy job).policyState.1 =
    d.policyState.1 := by
  refine QueuePolicies.canBeExecuted_keeps (I := fun after : Dependencies J × σ => after.1 = d.policyState.1) ?_ ?_ _ rfl
  · rintro (_ | policy) after h
    · exact h
    · exact (withDependencies_canRun_map _ _ _).trans h
  · rintro (_ | policy) after h
    · exact h
    · exact (withDependencies_release_map _ _ _).trans h

theorem notMem_of_canBeExecuted (hpolicy : some none ∈ d.queuePolicies job)
    (hcan : d.canBeExecuted F.addDependencyPolicy job = true) :
    (job, dependee) ∉ d.policyState.1 := by
  obtain ⟨asked, hmap, hcanRun⟩ :=
    QueuePolicies.canRun_of_accepts (I := fun after : Dependencies J × σ => after.1 = d.policyState.1) (by
      rintro (_ | policy) after h
      · exact h
      · exact (withDependencies_canRun_map _ _ _).trans h) rfl hcan hpolicy
  rw [← hmap]
  exact notMem_of_canRun (q := F.policies) hcanRun

theorem mem_of_freeQueuePolicies {status : Status} {entry : J × J} (hne : entry.2 ≠ job)
    (policies : List (Option (Option P))) {state : Dependencies J × σ} (hmem : entry ∈ state.1) :
    entry ∈ (policies.foldl (fun state policy =>
      (withBlocker F.addDependencyPolicy.policies).free policy job status state) state).1 := by
  induction policies generalizing state with
  | nil => exact hmem
  | cons policy rest ih =>
      refine ih ?_
      cases policy with
      | none => exact hmem
      | some policy => exact withDependencies_free_mem policy hmem hne

variable [DecidableEq P] [DecidableEq T] {start : Weaver.Start J (Option P) (Dependencies J × σ)}
  {s next : State J (Option P) T (Dependencies J × σ)}

/-- Jobs that depend on a collection wait until it is cleaned up. -/
structure State.Awaited (F : Forest J P σ)
    (start : Weaver.Start J (Option P) (Dependencies J × σ))
    (s : State J (Option P) T (Dependencies J × σ)) : Prop where
  policy : ∀ job, none ∈ start.queuePolicies job → some none ∈ s.data.queuePolicies job
  entry : ∀ dependent collection, F.kind collection ≠ .plain →
    (dependent, collection) ∈ start.policyState.1 →
    (dependent, collection) ∈ s.data.policyState.1 ∨ .cleanedUp collection ∈ s.data.log
  ordered : Ordered (fun before event => ∀ thread dependent, event = .assigned thread dependent →
    ∀ collection, F.kind collection ≠ .plain → Depends start dependent collection →
      Books.EndedBefore F before collection) s.data.log

theorem State.Awaited.runThread (hw : s.Awaited F start) (hs : s.Sound F.addDependencyPolicy)
    (hrecorded : s.data.books.Recorded) (hreleased : s.data.books.Released F.addDependencyPolicy)
    {thread : Thread T} (h : s.runThread F.addDependencyPolicy thread = some next) :
    next.Awaited F start := by
  obtain ⟨op, rest, hstack, -, rfl⟩ := State.runThread_eq_some h
  have hop : op ∈ s.stack thread := by
    rw [hstack]
    exact List.mem_cons_self
  have hlog := exec_log F.addDependencyPolicy thread op s.data
  refine ⟨fun job hjob => ?_, fun dependent collection hkind hentry => ?_, ?_⟩
  · have hpolicy := hw.policy job hjob
    dsimp only
    rcases exec_queuePolicies F.addDependencyPolicy thread op s.data job with
      hsame | ⟨-, hassigned⟩ | ⟨-, hremoved⟩
    · rwa [hsame]
    · rw [hassigned]
      exact Weaver.State.mem_assignQueuePolicy.mpr (.inr hpolicy)
    · rw [hremoved]
      exact (Weaver.State.mem_removeQueuePolicy_of_ne (by simp)).mpr hpolicy
  · dsimp only
    rw [hlog]
    rcases hw.entry dependent collection hkind hentry with hmem | hcleaned
    · rcases exec_policies F.addDependencyPolicy thread op s.data with
        ⟨hsame, -⟩ | ⟨job, candidates, -, hasked, -⟩ | ⟨job, status, hfrees, hfreed, -⟩
      · exact .inl (by rwa [hsame])
      · exact .inl (by rwa [hasked, askPolicies_map])
      · by_cases heq : collection = job
        · -- the collection itself is freed, in `finalCleanup` or later
          subst heq
          refine .inr ?_
          cases hfrees with
          | countDown hone | checkLast hone => simp [Op.events, hone]
          | defaultEnd =>
              refine List.mem_append_left _ (hreleased.isOver _ hkind ?_)
              have hplace := hs.place_eq hop List.mem_cons_self
              simp [Data.books, hplace, Place.isOver]
        · refine .inl ?_
          rw [hfreed]
          exact mem_of_freeQueuePolicies heq _ hmem
    · exact .inr (List.mem_append_left _ hcleaned)
  · dsimp only
    rw [hlog]
    by_cases hassigns : ∃ other dependent, .assigned other dependent ∈
        op.events F.addDependencyPolicy thread s.data
    · -- the job has been accepted, so the collection has been cleaned up
      obtain ⟨other, dependent, hmem⟩ := hassigns
      obtain ⟨candidates, rfl, hcan⟩ : ∃ candidates, op = .takeFirst (dependent :: candidates) ∧
          s.data.canBeExecuted F.addDependencyPolicy dependent = true := by
        unfold Op.events at hmem
        split at hmem <;> (try split at hmem) <;> simp_all
      rw [show (Op.takeFirst (dependent :: candidates)).events F.addDependencyPolicy thread s.data =
        [.assigned thread dependent] from if_pos hcan]
      refine hw.ordered.concat ?_
      rintro thread' dependent' heq collection hkind ⟨hpolicy, hentry⟩
      cases heq
      have hcleaned := (hw.entry dependent collection hkind hentry).resolve_left
        (notMem_of_canBeExecuted (hw.policy dependent hpolicy) hcan)
      exact hrecorded.endedBefore (hreleased.past collection hcleaned)
    · refine hw.ordered.append_of_forall fun event hmem _ other dependent heq => ?_
      subst heq
      exact absurd ⟨other, dependent, hmem⟩ hassigns

theorem runs_awaited (run : Runs F.addDependencyPolicy (NotReleasedEarly F.addDependencyPolicy)
    start s) : s.Awaited F start := by
  induction run with
  | refl =>
      refine ⟨fun job hjob => ?_, fun _ _ _ hentry => .inl hentry, Ordered.nil⟩
      exact List.mem_map_of_mem hjob
  | @tail mid last act run hok hstep ih =>
      have hcall : ∀ {before : State J (Option P) T (Dependencies J × σ)} {caller ops},
          before.Awaited F start → before.beginCall caller ops = some last →
          last.Awaited F start := by
        intro before caller ops hbefore hbegin
        obtain ⟨-, rfl⟩ := State.beginCall_eq_some hbegin
        exact ⟨hbefore.policy, hbefore.entry, hbefore.ordered⟩
      cases act with
      | run thread =>
          exact ih.runThread (runs_sound run) (runs_recorded run) (runs_released run) hstep
      | enqueue caller jobs =>
          simp only [step] at hstep
          split at hstep
          · have htaken : (mid.takeUp (.caller caller) jobs).Awaited F start :=
              ⟨ih.policy, ih.entry, ih.ordered⟩
            exact hcall htaken hstep
          · cases hstep
      | stop caller collection =>
          simp only [step] at hstep
          split at hstep
          · cases hstep
          · exact hcall ih hstep
      | requestAbort caller job => exact hcall ih hstep
      | finish caller => exact hcall ih hstep

/-- **A collection is not released early**, unless `dequeueElements` does it: when
`finalCleanup` runs, every element of the collection that has been assigned has ended, and
so it is when a job that depends on the collection is assigned. -/
theorem not_released_early
    (run : Runs F.addDependencyPolicy (NotReleasedEarly F.addDependencyPolicy) start s) :
    (∀ before after collection, s.data.log = before ++ .cleanedUp collection :: after →
      ∀ element ∈ F.elements collection, (∃ thread, .assigned thread element ∈ before) →
        ∃ status, .ended element status ∈ before) ∧
    ∀ before after thread dependent, s.data.log = before ++ .assigned thread dependent :: after →
      ∀ collection, F.kind collection ≠ .plain → Depends start dependent collection →
        ∀ element ∈ F.elements collection, (∃ thread, .assigned thread element ∈ before) →
          ∃ status, .ended element status ∈ before := by
  constructor
  · intro before after collection hlog element helement
    exact (runs_released run).ordered before _ after hlog collection rfl element
      ((F.mem_elements _ _).mp helement)
  · intro before after thread dependent hlog collection hkind hdepends element helement
    exact (runs_awaited run).ordered before _ after hlog thread dependent rfl collection hkind
      hdepends element ((F.mem_elements _ _).mp helement)

end Dependents

/-- Of the three jobs of the inner Collection two are executed while it is stopped, and the third is
taken out of the queue; job `5` depends on the outer one. -/
theorem not_released_early_dependent :
    ∃ (s : State (Fin 7) (Option Empty) Unit (Dependencies (Fin 7) × Unit))
      (earlier between : List (Event (Fin 7) Unit)),
      s.data.log = earlier ++ .cleanedUp 1 :: (between ++ [.assigned (.worker 1) 5]) ∧
        .dequeued 4 ∈ earlier ∧ (∃ status, .ended 3 status ∈ earlier) ∧
        ∃ status, .ended 1 status ∈ earlier ++ .cleanedUp 1 :: between := by
  obtain ⟨s, run, hlog, -⟩ :=
    exists_runs (T := Unit) nestAndJobs.addDependencyPolicy
      (NotReleasedEarly nestAndJobs.addDependencyPolicy) jobAfterNest
      (fun s => s.data.log =
        [.enqueued 0, .enqueued 5, .assigned (.worker 0) 0, .started 0, .enqueued 1,
          .assigned (.worker 0) 1, .started 1, .enqueued 2, .enqueued 3, .enqueued 4,
          .assigned (.worker 0) 2, .started 2, .assigned (.worker 1) 3, .started 3, .dequeued 4,
          .ended 2 .success, .ended 3 .success] ++ .cleanedUp 1 ::
        ([.ended 1 .success, .cleanedUp 0, .ended 0 .success] ++ [.assigned (.worker 1) 5]))
      (List.flatten [[.enqueue () [0, 5]], List.replicate 4 (.run (.caller ())),
        List.replicate 38 (.run (.worker 0)), List.replicate 7 (.run (.worker 1)),
        [.stop () 1], List.replicate 13 (.run (.caller ())),
        List.replicate 8 (.run (.worker 0)), List.replicate 14 (.run (.worker 1))])
      (by decide +kernel)
  obtain ⟨hcleanedUp, hassigned⟩ := not_released_early run
  refine ⟨s, _, _, hlog, by simp, ?_, ?_⟩
  · exact hcleanedUp _ _ 1 hlog 3 (by decide) ⟨.worker 1, by simp⟩
  · rw [← List.cons_append, ← List.append_assoc] at hlog
    exact hassigned _ _ _ 5 hlog 0 (by decide) ⟨by decide, by decide⟩ 1 (by decide)
      ⟨.worker 0, by simp⟩

/-- The element is being executed when the collection is stopped: `dequeueElements` finds the
counter at one and cleans up, and job `2` is assigned while the element is still running. -/
theorem released_early :
    ¬ (∀ s : State (Fin 3) (Option Empty) Unit (Dependencies (Fin 3) × Unit),
        Runs pairAndJob.addDependencyPolicy (fun _ _ => True) jobAfterPair s →
        ∀ before after collection, s.data.log = before ++ .cleanedUp collection :: after →
          ∀ element ∈ pairAndJob.elements collection,
            (∃ thread, .assigned thread element ∈ before) →
              ∃ status, .ended element status ∈ before) ∧
    ¬ ∀ s : State (Fin 3) (Option Empty) Unit (Dependencies (Fin 3) × Unit),
        Runs pairAndJob.addDependencyPolicy (fun _ _ => True) jobAfterPair s →
        ∀ before after thread dependent,
          s.data.log = before ++ .assigned thread dependent :: after →
          ∀ collection, pairAndJob.kind collection ≠ .plain →
            Depends jobAfterPair dependent collection →
            ∀ element ∈ pairAndJob.elements collection,
              (∃ thread, .assigned thread element ∈ before) →
                ∃ status, .ended element status ∈ before := by
  obtain ⟨s, run, hlog, -⟩ :=
    exists_runs (T := Unit) pairAndJob.addDependencyPolicy (fun _ _ => True) jobAfterPair
      (fun s => s.data.log =
        [.enqueued 0, .enqueued 2, .assigned (.worker 0) 0, .started 0, .enqueued 1,
          .assigned (.worker 0) 1, .started 1, .cleanedUp 0, .assigned (.worker 1) 2])
      (List.flatten [[.enqueue () [0, 2]], List.replicate 4 (.run (.caller ())),
        List.replicate 20 (.run (.worker 0)), [.stop () 0],
        List.replicate 7 (.run (.caller ())), List.replicate 2 (.run (.worker 1))])
      (by decide +kernel)
  constructor
  · intro hclaim
    obtain ⟨status, hended⟩ := hclaim s run [_, _, _, _, _, _, _] _ 0 hlog 1 (by decide)
      ⟨.worker 0, by simp⟩
    simp at hended
  · intro hclaim
    obtain ⟨status, hended⟩ := hclaim s run [_, _, _, _, _, _, _, _] _ _ 2 hlog 0
      (by decide) ⟨by decide, by decide⟩ 1 (by decide) ⟨.worker 0, by simp⟩
    simp at hended

end ThreadWeaver.Collection
