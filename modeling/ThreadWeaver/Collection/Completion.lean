import ThreadWeaver.Collection.History
import ThreadWeaver.Collection.Inversion

/-!
# Completion

A collection that has been executed comes to its end when its last element has been
counted: then its end runs once, its status is final, and `api` and `self` are cleared.
Three things break this: the collection is aborted before its own job is completed, so that
its elements are never enqueued; its last outstanding elements are dequeued, so that the
counter goes from one to zero in `dequeueElements`, which is not noticed; an element that is
itself a collection leaves the queue by its own `stop`, so that nobody counts it.

`completion` says that a collection to which none of the three happens is completed.
-/

namespace ThreadWeaver.Collection

variable {J P T σ : Type*} [DecidableEq J]

/-- The own job of a collection is being executed or has been, and the end has not begun. -/
def Place.isUnderWay : Place T → Bool
  | held .executing _ | held .closing _ | waiting => true
  | _ => false

/-- What the end of a job leaves behind. -/
structure State.Finishing (F : Forest J P σ) (s : State J P T σ) : Prop where
  status : ∀ job, (s.data.place job).isOver = true → (s.data.status job).isFinished = true
  api : ∀ collection, s.data.api collection = true →
    F.kind collection ≠ .plain ∧ (s.data.place collection).isOver = false
  self : ∀ collection, s.data.self collection = true →
    F.kind collection ≠ .plain ∧ ((s.data.place collection).isUnderWay = true ∨
      ∃ thread, .clearSelf collection ∈ s.stack thread)

omit [DecidableEq J] in
theorem Data.finalStatus_isFinished (d : Data J P T σ) (collection : J) :
    (d.finalStatus collection).isFinished = true := by
  unfold Data.finalStatus
  split
  · rfl
  · split
    · rfl
    · rename_i hnot
      cases hstatus : d.status collection <;> rw [hstatus] at hnot <;>
        first | rfl | exact absurd (by decide) hnot

theorem Data.finalCleanup_isFinished (F : Forest J P σ) (d : Data J P T σ) (collection : J) :
    ((d.finalCleanup F collection).status collection).isFinished = true := by
  have hstatus : (d.finalCleanup F collection).status collection = d.finalStatus collection :=
    Function.update_self _ _ _
  rw [hstatus]
  exact d.finalStatus_isFinished collection

omit [DecidableEq J] in
theorem Forest.runStatus_isFinished (F : Forest J P σ) (job : J) :
    (F.runStatus job).isFinished = true := by
  unfold Forest.runStatus
  split
  · exact F.outcome_isFinished job
  · rfl

section Step

variable [DecidableEq P] {F : Forest J P σ} {s next : State J P T σ} {thread : Thread T}
  {op : Op J} {rest : List (Op J)} {job : J}

theorem exec_countDown_last {d : Data J P T σ} {collection : J}
    (hone : d.jobCounter collection = 1) :
    exec F thread (.countDown collection job) d =
      ((((d.count collection job).finalCleanup F collection).moveTo collection
          (.held .ending thread)).unlock (.job collection),
        [.defaultEnd collection, .clearSelf collection]) := by
  simp [exec, Data.count, Data.decJobCounter, Data.moveTo, hone]

/-- The end of a job leaves its status alone. -/
theorem State.Sound.exec_status_of_over (hs : s.Sound F) (hstack : s.stack thread = op :: rest)
    (hover : (s.data.place job).isOver = true) :
    (exec F thread op s.data).1.status job = s.data.status job := by
  have hop : op ∈ s.stack thread := by
    rw [hstack]
    exact List.mem_cons_self
  have hfits : Fits F op rest := by
    have hlayout := hs.layout thread
    rw [hstack] at hlayout
    exact hlayout.1
  rcases exec_status F thread op s.data job with hsame | hsets
  · exact hsame
  exfalso
  -- a collection that is being told about a job has not come to its end
  have hcompleting : ∀ {collection head : J},
      (∀ below, Fits F op below ↔ F.Concerns collection head) →
      op.jobs = [(head, if head = collection then .closing else .reporting)] →
      (s.data.place collection).isOver = false := by
    intro collection head hconcerns hjobs
    rcases hs.of_completing hop hconcerns hjobs with ⟨rfl, -, hplace⟩ | ⟨hparent, -, hplace⟩
    · rw [hplace]
      rfl
    · exact hs.books.not_over hparent (by simp [Data.books, hplace, Place.isCounted])
  have hnot : (s.data.place job).isOver = false := by
    generalize (exec F thread op s.data).1.status job = status at hsets
    cases hsets with
    | enqueueJob | setRunning | run =>
        rw [hs.place_eq hop List.mem_cons_self]
        rfl
    | setStatus =>
        rw [(hs.of_setStatus hop).2]
        rfl
    | update | restore | countDown => exact hcompleting (fun _ => Iff.rfl) rfl
    | checkLast hlast =>
        by_contra hyes
        have hzero := (hs.books.isOver job hfits.1 (Bool.not_eq_false _ ▸ hyes)).2
        simp only [Data.books] at hzero
        omega
    | takeAt => rcases (hs.of_takeAt hop).2 with hplace | hplace <;> rw [hplace] <;> rfl
  rw [hover] at hnot
  cases hnot

variable [DecidableEq T]

omit [DecidableEq J] in
theorem mem_update_stack {stack : Thread T → List (Op J)} {new : List (Op J)} {other : Thread T}
    {below : Op J} (hstack : stack thread = op :: rest) (hne : op ≠ below)
    (hmem : below ∈ stack other) :
    below ∈ Function.update stack thread (new ++ rest) other := by
  by_cases hother : other = thread
  · subst hother
    rw [Function.update_self]
    rw [hstack] at hmem
    exact List.mem_append_right _ ((List.mem_cons.mp hmem).resolve_left (Ne.symm hne))
  · rwa [Function.update_of_ne hother]

theorem State.Finishing.runThread (hf : s.Finishing F) (hs : s.Sound F)
    (h : s.runThread F thread = some next) : next.Finishing F := by
  obtain ⟨op, rest, hstack, hfree, rfl⟩ := State.runThread_eq_some h
  have hplace := hs.exec_place hstack hfree
  refine ⟨?_, ?_, ?_⟩
  · intro job hover
    dsimp only at hover ⊢
    rcases hplace job with hsame | hmoves
    · rw [hsame] at hover
      rw [hs.exec_status_of_over hstack hover]
      exact hf.status job hover
    · generalize hbefore : s.data.place job = before at hmoves
      generalize (exec F thread op s.data).1.place job = after at hover hmoves
      cases hmoves with
      | ending hkind =>
          have hstatus : (exec F thread (.run job) s.data).1.status job = F.runStatus job := by
            simp [exec, hkind, Data.moveTo, Data.setStatus]
          rw [hstatus]
          exact F.runStatus_isFinished job
      | ended | reporting =>
          have hover' : (s.data.place job).isOver = true := by
            rw [hbefore]
            rfl
          rw [hs.exec_status_of_over hstack hover']
          exact hf.status job hover'
      | reported =>
          have hover' : (s.data.place job).isOver = true := by
            rw [hbefore]
            rfl
          rw [hs.exec_status_of_over hstack hover']
          exact hf.status job hover'
      | endingSelf _ hone | endingElement _ hone =>
          rw [exec_countDown_last hone]
          exact Data.finalCleanup_isFinished F _ _
      | _ => cases hover
  · intro collection hapi
    dsimp only at hapi ⊢
    rcases exec_api F thread op s.data collection hapi with ⟨hkind, rfl⟩ | ⟨hbefore, hnot⟩
    · refine ⟨hkind, ?_⟩
      show (Function.update s.data.place collection .queued collection).isOver = false
      rw [Function.update_self]
      rfl
    · obtain ⟨hkind, hover⟩ := hf.api collection hbefore
      refine ⟨hkind, ?_⟩
      rcases hplace collection with hsame | hmoves
      · rw [hsame]
        exact hover
      · generalize s.data.place collection = before at hmoves hover
        generalize (exec F thread op s.data).1.place collection = after at hmoves
        cases hmoves with
        | ending hplain => exact absurd hplain hkind
        | endingSelf _ hone | endingElement _ hone => exact absurd ⟨hone, _, rfl⟩ hnot
        | ended | reporting | reported => cases hover
        | _ => rfl
  · intro collection hself
    dsimp only at hself ⊢
    rcases exec_self F thread op s.data collection hself with ⟨hkind, rfl⟩ | ⟨hbefore, hne⟩
    · refine ⟨hkind, .inl ?_⟩
      simp [exec, hkind, Data.executeCollection, Data.moveTo, Data.record, Place.isUnderWay]
    · obtain ⟨hkind, hunder⟩ := hf.self collection hbefore
      refine ⟨hkind, ?_⟩
      rcases hunder with hunder | ⟨other, hmem⟩
      · rcases hplace collection with hsame | hmoves
        · rw [hsame]
          exact .inl hunder
        · have hclear : s.data.jobCounter collection = 1 → ∀ head, op = .countDown collection head →
              ∃ other, .clearSelf collection ∈ Function.update s.stack thread
                ((exec F thread op s.data).2 ++ rest) other := by
            rintro hone head rfl
            refine ⟨thread, ?_⟩
            rw [Function.update_self, exec_countDown_last hone]
            simp
          generalize s.data.place collection = before at hmoves hunder
          generalize (exec F thread op s.data).1.place collection = after at hmoves
          cases hmoves with
          | ending hplain => exact absurd hplain hkind
          | endingSelf _ hone | endingElement _ hone => exact .inr (hclear hone _ rfl)
          | closing | waiting => exact .inl rfl
          | _ => cases hunder
      · exact .inr ⟨other, mem_update_stack hstack hne hmem⟩

omit [DecidableEq J] [DecidableEq P] in
theorem State.Finishing.beginCall (hf : s.Finishing F) {caller : T} {ops : List (Op J)}
    (h : s.beginCall caller ops = some next) : next.Finishing F := by
  obtain ⟨hidle, rfl⟩ := State.beginCall_eq_some h
  refine ⟨hf.status, hf.api, fun collection hself => ?_⟩
  obtain ⟨hkind, hunder | ⟨other, hmem⟩⟩ := hf.self collection hself
  · exact ⟨hkind, .inl hunder⟩
  · refine ⟨hkind, .inr ⟨other, ?_⟩⟩
    have hne : other ≠ .caller caller := by
      rintro rfl
      rw [hidle] at hmem
      cases hmem
    dsimp only
    rwa [Function.update_of_ne hne]

omit [DecidableEq P] [DecidableEq T] in
theorem State.Finishing.takeUp (hf : s.Finishing F) {jobs : List J}
    (hjobs : ∀ job ∈ jobs, F.parent job = none ∧ s.data.place job = .fresh) :
    (s.takeUp thread jobs).Finishing F := by
  refine ⟨fun job hover => ?_, fun collection hapi => ?_, fun collection hself => ?_⟩
  · by_cases hmem : job ∈ jobs
    · simp [State.takeUp, hmem, Place.isOver] at hover
    · simp only [State.takeUp, if_neg hmem] at hover
      exact hf.status job hover
  · obtain ⟨hkind, hover⟩ := hf.api collection hapi
    refine ⟨hkind, ?_⟩
    simp only [State.takeUp]
    split
    · rfl
    · exact hover
  · obtain ⟨hkind, hunder | hclear⟩ := hf.self collection hself
    · refine ⟨hkind, .inl ?_⟩
      have hnot : collection ∉ jobs := by
        intro hmem
        rw [(hjobs collection hmem).2] at hunder
        cases hunder
      simpa only [State.takeUp, if_neg hnot] using hunder
    · exact ⟨hkind, .inr hclear⟩

theorem State.Finishing.step (hf : s.Finishing F) (hs : s.Sound F) {act : Act J T}
    (h : step F s act = some next) : next.Finishing F :=
  step_rule hf (fun _ _ => hf.runThread hs) (fun _ _ _ => hf.takeUp)
    (fun _ _ hbefore => hbefore.beginCall) h

omit [DecidableEq J] [DecidableEq P] [DecidableEq T] in
theorem finishing_init (start : Weaver.Start J P σ) :
    (init start : State J P T σ).Finishing F := by
  refine ⟨?_, ?_, ?_⟩
  · intro job hover
    cases hover
  · intro collection hapi
    cases hapi
  · intro collection hself
    cases hself

theorem runs_finishing {ok : State J P T σ → Act J T → Prop} {start : Weaver.Start J P σ}
    (run : Runs F ok start s) : s.Finishing F := by
  induction run with
  | refl => exact finishing_init start
  | tail run _ hstep ih => exact ih.step (runs_sound run) hstep

end Step

/-! ## Nothing is missed -/

/-- The operation misses the end of the collection. -/
def Op.misses (F : Forest J P σ) (collection : J) (d : Data J P T σ) : Op J → Bool
  -- completed after an abort
  | elementFinished other _ =>
      other = collection ∧ d.selfIsExecuting collection ∧ d.shouldAbort collection
  -- the last outstanding element is dequeued
  | discount other _ => other = collection ∧ d.jobCounter collection = 1
  -- an element leaves the queue by its own `stop`
  | dequeueSelf element => F.parent element = some collection ∧ element ∈ d.assignments
  | _ => false

/-- No operation that misses the end of the collection is done. -/
def NothingMissed (F : Forest J P σ) (collection : J) (s : State J P T σ) (act : Act J T) :
    Prop :=
  ∀ op ∈ s.nextOp act, op.misses F collection s.data = false

instance (F : Forest J P σ) (collection : J) (s : State J P T σ) (act : Act J T) :
    Decidable (NothingMissed F collection s act) :=
  inferInstanceAs (Decidable (∀ op ∈ s.nextOp act, op.misses F collection s.data = false))

namespace Books

/-- The discipline of a run that does not miss the end of the collection. -/
def missesNot (F : Forest J P σ) (collection : J) : Discipline J T where
  mayClose other := other ≠ collection
  mayLeave element := F.parent element ≠ some collection
  mayDiscount b other _ := other = collection → b.jobCounter collection ≠ 1
  mayCleanUp _ _ := True

/-- The collection opens before its own job is completed, it waits only while there is
something to count, and no element is lost. -/
structure Unmissed (F : Forest J P σ) (collection : J) (b : Books J T) : Prop where
  opened : (b.place collection).isLate = true → b.opened collection = true
  waiting : b.place collection = .waiting → 1 ≤ b.jobCounter collection
  kept : ∀ element, F.parent element = some collection → b.place element ≠ .lost ∧
    ∀ thread, b.place element ≠ .held .leaving thread

variable {F : Forest J P σ} {collection : J} {b b' : Books J T}

omit [DecidableEq J] in
/-- A change of the books that moves the collection and its elements only to places where
nothing is missed. -/
theorem Unmissed.of_places (hb : b.Unmissed F collection) {place : J → Place T}
    {opened : J → Bool} {counter : J → ℤ} {log : List (Event J T)}
    (hopened : (place collection).isLate = true →
      opened collection = true ∨
        opened collection = b.opened collection ∧ (b.place collection).isLate = true)
    (hwaiting : place collection = .waiting → 1 ≤ counter collection ∨
      b.place collection = .waiting ∧ counter collection = b.jobCounter collection)
    (hkept : ∀ element, F.parent element = some collection → place element ≠ b.place element →
      place element ≠ .lost ∧ ∀ thread, place element ≠ .held .leaving thread) :
    Unmissed F collection (⟨place, opened, counter, log⟩ : Books J T) := by
  refine ⟨fun hlate => ?_, fun hplace => ?_, fun element hparent => ?_⟩
  · rcases hopened hlate with h | ⟨hsame, hbefore⟩
    · exact h
    · exact hsame.trans (hb.opened hbefore)
  · rcases hwaiting hplace with h | ⟨hbefore, hsame⟩
    · exact h
    · exact le_of_le_of_eq (hb.waiting hbefore) hsame.symm
  · by_cases hsame : place element = b.place element
    · dsimp only
      rw [hsame]
      exact hb.kept element hparent
    · exact hkept element hparent hsame

theorem Unmissed.goTo {job : J} {place : Place T} {events : List (Event J T)}
    (hkind : F.kind collection ≠ .plain) (hb : b.Unmissed F collection)
    (hgoes : Goes F job (b.place job) place events)
    (hmay : (missesNot F collection).mayGo job place) :
    (b.goTo job place events).Unmissed F collection := by
  refine hb.of_places (fun hlate => ?_) (fun hwaiting => ?_) fun element hparent hne => ?_
  · by_cases heq : collection = job
    · subst heq
      rw [Function.update_self] at hlate
      refine .inr ⟨rfl, ?_⟩
      generalize b.place collection = before at hgoes ⊢
      cases hgoes with
      | closing => exact absurd rfl hmay
      | ending _ hplain => exact absurd hplain hkind
      | ended | reporting => rfl
      | _ => cases hlate
    · rw [Function.update_of_ne heq] at hlate
      exact .inr ⟨rfl, hlate⟩
  · by_cases heq : collection = job
    · subst heq
      rw [Function.update_self] at hwaiting
      subst hwaiting
      generalize b.place collection = before at hgoes
      cases hgoes
    · rw [Function.update_of_ne heq] at hwaiting
      exact .inr ⟨hwaiting, rfl⟩
  · by_cases heq : element = job
    · subst heq
      have hbefore := hb.kept element hparent
      rw [Function.update_self]
      generalize b.place element = before at hgoes hbefore
      cases hgoes with
      | leaving => exact absurd hparent hmay
      | lost thread => exact absurd rfl (hbefore.2 thread)
      | _ => simp
    · exact absurd (Function.update_of_ne heq _ _) hne

/-- The collection, or one of its elements, is counted off without missing the end. -/
theorem Unmissed.countOff {owner job : J} {place : Place T} (hb : b.Unmissed F collection)
    (hlate : (place.isLate = true → (b.place job).isLate = true))
    (hwaiting : place = .waiting → job = owner)
    (hcounter : owner = collection → b.place collection = .waiting ∨ place = .waiting →
      1 ≤ b.jobCounter collection - 1)
    (hkept : place ≠ .lost ∧ ∀ thread, place ≠ .held .leaving thread) :
    (b.countOff owner job place).Unmissed F collection := by
  refine hb.of_places (fun hafter => .inr ⟨rfl, ?_⟩) (fun hafter => ?_)
    fun element hparent hne => ?_
  · by_cases heq : collection = job
    · subst heq
      rw [Function.update_self] at hafter
      exact hlate hafter
    · rwa [Function.update_of_ne heq] at hafter
  · by_cases howner : owner = collection
    · subst howner
      refine .inl ?_
      rw [Function.update_self]
      by_cases heq : owner = job
      · rw [← heq, Function.update_self] at hafter
        exact hcounter rfl (.inr hafter)
      · rw [Function.update_of_ne heq] at hafter
        exact hcounter rfl (.inl hafter)
    · rw [Function.update_of_ne (Ne.symm howner)]
      by_cases heq : collection = job
      · subst heq
        rw [Function.update_self] at hafter
        exact absurd (hwaiting hafter).symm howner
      · rw [Function.update_of_ne heq] at hafter
        exact .inr ⟨hafter, rfl⟩
  · by_cases heq : element = job
    · subst heq
      rwa [Function.update_self]
    · exact absurd (Function.update_of_ne heq _ _) hne

/-- **No move misses the end of the collection.** -/
theorem Unmissed.move (hkind : F.kind collection ≠ .plain) (hb : b.Unmissed F collection)
    (hlawful : b.Lawful F) (h : Move F (missesNot F collection) b b') :
    b'.Unmissed F collection := by
  cases h with
  | goes hgoes hmay => exact hb.goTo hkind hgoes hmay
  | @takeUp thread jobs hjobs =>
      refine hb.of_places (fun hlate => ?_) (fun hwaiting => ?_) fun element hparent hne => ?_
      · by_cases hmem : collection ∈ jobs
        · simp [hmem, Place.isLate] at hlate
        · rw [if_neg hmem] at hlate
          exact .inr ⟨rfl, hlate⟩
      · by_cases hmem : collection ∈ jobs
        · simp [hmem] at hwaiting
        · rw [if_neg hmem] at hwaiting
          exact .inr ⟨hwaiting, rfl⟩
      · split <;> simp_all
  | @openElements thread owner _ hplace =>
      refine hb.of_places (fun hlate => ?_) (fun hwaiting => ?_) fun element hparent hne => ?_
      · by_cases heq : collection = owner
        · subst heq
          exact .inl (Function.update_self _ _ _)
        · rw [Function.update_of_ne heq]
          split at hlate
          · cases hlate
          · rw [Function.update_of_ne heq] at hlate
            exact .inr ⟨rfl, hlate⟩
      · split at hwaiting
        · cases hwaiting
        · by_cases heq : collection = owner
          · subst heq
            simp at hwaiting
          · rw [Function.update_of_ne heq] at hwaiting ⊢
            exact .inr ⟨hwaiting, rfl⟩
      · split
        · simp
        · rename_i hmem
          rw [if_neg hmem] at hne
          by_cases heq : element = owner
          · subst heq
            simp
          · exact absurd (Function.update_of_ne heq _ _) hne
  | @countSelf thread owner hplace hne =>
      refine hb.countOff (by simp [hplace, Place.isLate]) (fun _ => rfl) ?_ (by simp)
      rintro rfl -
      have hopened := hb.opened (by rw [hplace]; rfl)
      have hcounter := hlawful.counter owner hopened
      rw [hplace] at hcounter
      simp only [Place.isClosing, Bool.toNat_true] at hcounter
      omega
  | @countElement thread owner job hparent hplace hne =>
      refine hb.countOff (by simp [hplace, Place.isLate]) (by simp) ?_ (by simp)
      rintro rfl (hwaiting | hwaiting)
      · have hpositive := hb.waiting hwaiting
        omega
      · cases hwaiting
  | @endSelf thread owner hplace hlast =>
      refine hb.of_places (fun hlate => ?_) (fun hwaiting => ?_) fun element hparent hne => ?_
      · by_cases heq : collection = owner
        · subst heq
          exact .inr ⟨rfl, by rw [hplace]; rfl⟩
        · simp only [Books.countOff, Function.update_of_ne heq] at hlate
          exact .inr ⟨rfl, hlate⟩
      · by_cases heq : collection = owner
        · subst heq
          simp at hwaiting
        · simp only [Books.countOff, Function.update_of_ne heq] at hwaiting
          exact .inr ⟨hwaiting, Function.update_of_ne heq _ _⟩
      · by_cases heq : element = owner
        · subst heq
          simp
        · simp [Books.countOff, heq] at hne
  | @endElement thread owner job hparent hplace hlast =>
      have hwaits := hlawful.waiting_of_last hparent (by simp [hplace, Place.isCounted])
        (by simp [hplace]) (by omega)
      refine hb.of_places (fun hlate => ?_) (fun hwaiting => ?_) fun element helement hne => ?_
      · by_cases heq : collection = owner
        · subst heq
          exact .inr ⟨rfl, by rw [hwaits]; rfl⟩
        · rw [Function.update_of_ne heq] at hlate
          by_cases hjob : collection = job
          · subst hjob
            exact .inr ⟨rfl, by rw [hplace]; rfl⟩
          · simp only [Books.countOff, Function.update_of_ne hjob] at hlate
            exact .inr ⟨rfl, hlate⟩
      · by_cases heq : collection = owner
        · subst heq
          simp at hwaiting
        · by_cases hjob : collection = job
          · subst hjob
            simp [Books.countOff, heq] at hwaiting
          · simp only [Books.countOff, Function.update_of_ne heq,
              Function.update_of_ne hjob] at hwaiting
            exact .inr ⟨hwaiting, Function.update_of_ne heq _ _⟩
      · by_cases heq : element = owner
        · subst heq
          simp
        · by_cases hjob : element = job
          · subst hjob
            simp [Books.countOff, heq]
          · simp [Books.countOff, heq, hjob] at hne
  | @discount thread owner job hparent hplace hmay =>
      refine hb.countOff (by simp [Place.isLate]) (by simp) ?_ (by simp)
      rintro rfl (hwaiting | hwaiting)
      · have hpositive := hb.waiting hwaiting
        have hne := hmay rfl
        omega
      · cases hwaiting
  | cleanUp _ _ => exact ⟨hb.opened, hb.waiting, hb.kept⟩
  | finished => exact ⟨hb.opened, hb.waiting, hb.kept⟩
  | finishReturned _ => exact ⟨hb.opened, hb.waiting, hb.kept⟩

end Books

section Completion

variable [DecidableEq P] [DecidableEq T] {F : Forest J P σ} {s : State J P T σ}

omit [DecidableEq P] [DecidableEq T] in
/-- The discipline covers what misses nothing. -/
theorem missesNot_covers {collection : J} {op : Op J} {d : Data J P T σ}
    (h : op.misses F collection d = false) :
    (Books.missesNot F collection : Books.Discipline J T).Covers d op := by
  cases op with
  | elementFinished other job =>
      intro hflag habort heq
      subst heq
      simp [Op.misses, hflag, habort] at h
  | dequeueSelf element =>
      intro hmem hparent
      simp [Op.misses, hmem, hparent] at h
  | discount other element =>
      rintro rfl hone
      simp only [Data.books] at hone
      simp [Op.misses, hone] at h
  | checkLast other => exact fun _ => trivial
  | _ => trivial

theorem runs_unmissed {collection : J} (hkind : F.kind collection ≠ .plain)
    {start : Weaver.Start J P σ} (run : Runs F (NothingMissed F collection) start s) :
    s.data.books.Unmissed F collection := by
  refine runs_books (D := Books.missesNot F collection) run ?_
    (fun state act _ hok op hop => missesNot_covers (hok op hop))
    fun b b' hlawful hb hmove => hb.move hkind hlawful hmove
  refine ⟨fun hlate => ?_, fun hwaiting => ?_, fun element _ => ?_⟩
  · cases hlate
  · cases hwaiting
  · simp [init, Data.books]

/-- The element is in the queue, with a thread, or has still to be counted by its
collection. -/
def Place.isUnsettled : Place T → Bool
  | queued | held _ _ | waiting => true
  | _ => false

/-- The collection or job that an operation is an operation on. -/
def Op.target? : Op J → Option J
  | execute job | elementStarted job | setRunning job | setStatus job _ | run job
  | defaultEnd job | elementFinished job _ | assignBlocker job | processCompletedElement job _
  | restoreStatus job _ _ | advance job _ | removeBlocker job | countDown job _
  | clearSelf job | enqueueJob job | stop job | dequeueSelf job | leave job
  | stopElements job | dequeueElements job _ | dequeueElement job _ _ | discount job _
  | checkLast job | aboutToBeDequeued job | resetApi job | takeAt job | requestAbort job
  | abortElements job | abortElement job | unlock (.job job) => some job
  | applyForWork _ | takeFirst _ | enqueue _ | finish | unlock .weaver => none

/-- No operation on the collection is in progress. -/
def State.Quiet (s : State J P T σ) (collection : J) : Prop :=
  ∀ thread, ∀ op ∈ s.stack thread, op.target? ≠ some collection

omit [DecidableEq P] [DecidableEq T] in
/-- A collection that no operation is about is in nobody's hands, unless a thread enqueues
it, dequeues it for the collection that it is an element of or reports it there. -/
theorem State.Sound.reporting_of_quiet (hs : s.Sound F) {collection : J} {stage : Stage}
    {thread : Thread T} (hquiet : s.Quiet collection)
    (hplace : s.data.place collection = .held stage thread) :
    stage = .pending ∨ stage = .taken ∨ stage = .reporting := by
  obtain ⟨op, hop, hjobs⟩ := hs.op_of_held hplace
  have htarget := hquiet thread op hop
  cases op with
  | enqueue jobs =>
      obtain ⟨_, _, heq⟩ := List.mem_map.mp hjobs
      cases heq
      exact .inl rfl
  | discount =>
      obtain ⟨rfl, rfl⟩ := Prod.mk.inj (List.mem_singleton.mp hjobs)
      exact .inr (.inl rfl)
  | elementFinished owner | processCompletedElement owner | restoreStatus owner
  | advance owner | countDown owner =>
      obtain ⟨rfl, rfl⟩ := Prod.mk.inj (List.mem_singleton.mp hjobs)
      rw [if_neg (fun heq => htarget (congrArg some heq.symm))]
      exact .inr (.inr rfl)
  | enqueueJob | execute | setRunning | run | defaultEnd | leave =>
      obtain ⟨rfl, rfl⟩ := Prod.mk.inj (List.mem_singleton.mp hjobs)
      exact absurd rfl htarget
  | _ => cases hjobs

/-- A collection none of whose elements can still be counted does not wait. -/
theorem runs_not_waiting {collection : J} (hkind : F.kind collection ≠ .plain)
    {start : Weaver.Start J P σ} (run : Runs F (NothingMissed F collection) start s)
    (hsettled : ∀ element ∈ F.elements collection,
      (s.data.place element).isUnsettled = false) :
    s.data.place collection ≠ .waiting := by
  intro hwaiting
  have hlawful := (runs_sound run).books
  have hunmissed := runs_unmissed hkind run
  have hopened := hunmissed.opened (by simp [Data.books, hwaiting, Place.isLate])
  have hpositive := hunmissed.waiting hwaiting
  have hcounter := hlawful.counter collection hopened
  have houtstanding : 0 < s.data.books.outstanding F collection := by
    simp only [Data.books, hwaiting, Place.isClosing, Bool.toNat_false] at hcounter hpositive ⊢
    omega
  -- some element is outstanding, and it is nowhere where it could be
  obtain ⟨element, hmem, hcounts⟩ := List.countP_pos_iff.mp houtstanding
  have hparent := (F.mem_elements _ _).mp hmem
  have hfresh := hlawful.fresh collection element hparent
  have hkept := (hunmissed.kept element hparent).1
  have hunsettled := hsettled element hmem
  rw [hopened] at hfresh
  simp only [Data.books] at hcounts hfresh hkept
  cases hplace : s.data.place element <;>
    simp_all [Place.isCounted, Place.isUnsettled]

/-- **The end of a collection is delivered exactly once**, if nothing is missed: when the
own job of the collection has been executed, none of its elements is in the queue, assigned
or still to be reported, and no operation on it is in progress, its end has run once, its
status is final, and `api` and `self` are cleared. -/
theorem completion {collection : J} (hkind : F.kind collection ≠ .plain)
    {start : Weaver.Start J P σ} (run : Runs F (NothingMissed F collection) start s)
    (hstarted : .started collection ∈ s.data.log)
    (hsettled : ∀ element ∈ F.elements collection,
      (s.data.place element).isUnsettled = false)
    (hquiet : s.Quiet collection) :
    s.data.log.countP (Event.isEndOf collection) = 1 ∧
      (s.data.status collection).isFinished = true ∧
      s.data.api collection = false ∧ s.data.self collection = false := by
  have hstarted' : (s.data.place collection).isStarted = true :=
    (runs_recorded run).started collection hstarted
  have hfinishing := runs_finishing run
  have hover : (s.data.place collection).isEnded = true := by
    cases hplace : s.data.place collection with
    | held stage thread =>
        have hstage := (runs_sound run).reporting_of_quiet hquiet hplace
        rw [hplace] at hstarted'
        cases stage <;> simp_all [Place.isStarted, Place.isEnded]
    | waiting => exact absurd hplace (runs_not_waiting hkind run hsettled)
    | reported => rfl
    | _ =>
        rw [hplace] at hstarted'
        cases hstarted'
  have hends := (runs_recorded run).ends collection
  have hend : (s.data.place collection).isOver = true ∧
      (s.data.place collection).isUnderWay = false := by
    cases hplace : s.data.place collection with
    | held stage thread =>
        rw [hplace] at hover
        cases stage <;> first | exact ⟨rfl, rfl⟩ | cases hover
    | reported => exact ⟨rfl, rfl⟩
    | _ =>
        rw [hplace] at hover
        cases hover
  refine ⟨?_, hfinishing.status collection hend.1, ?_, ?_⟩
  · rw [show s.data.books.place collection = s.data.place collection from rfl, hover] at hends
    exact hends
  · by_contra hapi
    have := (hfinishing.api collection (by simpa using hapi)).2
    rw [hend.1] at this
    cases this
  · by_contra hself
    rcases (hfinishing.self collection (by simpa using hself)).2 with hunder | ⟨thread, hmem⟩
    · rw [hend.2] at hunder
      cases hunder
    · exact hquiet thread _ hmem rfl

end Completion

/-- Of the two elements one is executed while the Collection is stopped and aborted, and the other
is taken out of the queue. -/
theorem completion_twins : ∃ s : State (Fin 3) Empty Unit Unit,
    Runs twins (NothingMissed twins 0) (.plain ()) s ∧ .started 0 ∈ s.data.log ∧
      .dequeued 2 ∈ s.data.log ∧ s.data.shouldAbort 0 = true ∧ s.data.shouldAbort 1 = true ∧
      s.data.log.countP (Event.isEndOf 0) = 1 ∧ (s.data.status 0).isFinished = true ∧
      s.data.api 0 = false ∧ s.data.self 0 = false := by
  obtain ⟨s, run, ⟨hstarted, hdequeued, haborted, helement, hsettled, hworker, hcaller⟩, hframe⟩ :=
    exists_runs twins (NothingMissed twins 0) (.plain ())
      (fun s : State (Fin 3) Empty Unit Unit => .started 0 ∈ s.data.log ∧
        .dequeued 2 ∈ s.data.log ∧ s.data.shouldAbort 0 = true ∧ s.data.shouldAbort 1 = true ∧
        (∀ element ∈ twins.elements 0, (s.data.place element).isUnsettled = false) ∧
        (∀ op ∈ s.stack (.worker 0), op.target? ≠ some 0) ∧ s.stack (.caller ()) = [])
      (List.flatten [[.enqueue () [0]], List.replicate 3 (.run (.caller ())),
        List.replicate 19 (.run (.worker 0)), [.requestAbort () 0],
        List.replicate 19 (.run (.caller ())), List.replicate 10 (.run (.worker 0))])
      (by decide +kernel)
  have hquiet : s.Quiet 0 := by
    rintro (number | ⟨⟩) op hop
    · cases number with
      | zero => exact hworker op hop
      | succ number =>
          rw [hframe (.worker (number + 1)) (by simp [Act.thread])] at hop
          obtain rfl := List.mem_singleton.mp hop
          simp [Op.target?]
    · rw [hcaller] at hop
      cases hop
  exact ⟨s, run, hstarted, hdequeued, haborted, helement,
    completion (by decide) run hstarted hsettled hquiet⟩

/-- The element is in the queue when the collection is stopped: it is dequeued, the counter
goes from one to zero, and the end of the collection never runs. -/
theorem completion_missed :
    ¬ ∀ s : State (Fin 2) Empty Unit Unit, Runs pair (fun _ _ => True) (.plain ()) s →
      .started 0 ∈ s.data.log →
      (∀ element ∈ pair.elements 0, (s.data.place element).isUnsettled = false) →
      s.Quiet 0 →
      s.data.log.countP (Event.isEndOf 0) = 1 ∧ (s.data.status 0).isFinished = true ∧
        s.data.api 0 = false ∧ s.data.self 0 = false := by
  intro hclaim
  obtain ⟨s, run, ⟨hstarted, hsettled, hworker, hcaller, hend⟩, hframe⟩ :=
    exists_runs pair (fun _ _ => True) (.plain ())
      (fun s : State (Fin 2) Empty Unit Unit => .started 0 ∈ s.data.log ∧
        (∀ element ∈ pair.elements 0, (s.data.place element).isUnsettled = false) ∧
        (∀ op ∈ s.stack (.worker 0), op.target? ≠ some 0) ∧ s.stack (.caller ()) = [] ∧
        s.data.log.countP (Event.isEndOf 0) = 0)
      (List.flatten [[.enqueue () [0]], List.replicate 3 (.run (.caller ())),
        List.replicate 13 (.run (.worker 0)), [.stop () 0],
        List.replicate 11 (.run (.caller ()))]) (by decide +kernel)
  have hquiet : s.Quiet 0 := by
    rintro (number | ⟨⟩) op hop
    · cases number with
      | zero => exact hworker op hop
      | succ number =>
          rw [hframe (.worker (number + 1)) (by simp [Act.thread])] at hop
          obtain rfl := List.mem_singleton.mp hop
          simp [Op.target?]
    · rw [hcaller] at hop
      cases hop
  have hdelivered := (hclaim s run hstarted hsettled hquiet).1
  omega

end ThreadWeaver.Collection
