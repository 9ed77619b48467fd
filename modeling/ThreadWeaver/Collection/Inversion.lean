import ThreadWeaver.Collection.History

/-!
# Which operation does what

Inversions of `exec`: an operation leaves a job where it is, or it is one of those listed
in `Moves`, and then it is known where the job was; it leaves the status of a job alone, or
it is one of those listed in `SetsStatus`; and likewise for `api` and `self`, for the calls of
queue policies and for the log.  `Calls` lists the operations that an operation leaves to be
done.
-/

namespace ThreadWeaver.Collection

variable {J P T σ : Type*}

/-- The operation of the thread takes the job from one place to another. -/
inductive Moves (F : Forest J P σ) (d : Data J P T σ) (thread : Thread T) :
    Op J → J → Place T → Place T → Prop
  | enqueued {job : J} :
      Moves F d thread (.enqueueJob job) job (.held .pending thread) .queued
  | assigned {job : J} {candidates : List J} :
      Moves F d thread (.takeFirst (job :: candidates)) job .queued (.held .assigned thread)
  | started {job : J} :
      Moves F d thread (.execute job) job (.held .assigned thread) (.held .executing thread)
  | ending {job : J} : F.kind job = .plain →
      Moves F d thread (.run job) job (.held .executing thread) (.held .ending thread)
  | closing {collection : J} : F.kind collection ≠ .plain →
      Moves F d thread (.elementFinished collection collection) collection
        (.held .executing thread) (.held .closing thread)
  | pending {collection job : J} : F.parent job = some collection →
      d.place collection = .held .executing thread → d.shouldAbort collection = false →
      Moves F d thread (.elementFinished collection collection) job .fresh
        (.held .pending thread)
  | ended {job : J} : F.parent job = none →
      Moves F d thread (.defaultEnd job) job (.held .ending thread) .reported
  | reporting {job collection : J} : F.parent job = some collection →
      Moves F d thread (.defaultEnd job) job (.held .ending thread) (.held .reporting thread)
  | waiting {collection : J} : F.kind collection ≠ .plain → d.jobCounter collection ≠ 1 →
      Moves F d thread (.countDown collection collection) collection (.held .closing thread)
        .waiting
  | reported {collection job : J} : F.parent job = some collection →
      Moves F d thread (.countDown collection job) job (.held .reporting thread) .reported
  | endingSelf {collection : J} : F.kind collection ≠ .plain → d.jobCounter collection = 1 →
      Moves F d thread (.countDown collection collection) collection (.held .closing thread)
        (.held .ending thread)
  | endingElement {collection job : J} : F.parent job = some collection →
      d.jobCounter collection = 1 →
      Moves F d thread (.countDown collection job) collection .waiting (.held .ending thread)
  | leaving {collection : J} : F.kind collection ≠ .plain →
      Moves F d thread (.dequeueSelf collection) collection .queued (.held .leaving thread)
  | again {collection : J} : F.parent collection = none →
      Moves F d thread (.leave collection) collection (.held .leaving thread) .fresh
  | lost {collection : J} : F.parent collection ≠ none →
      Moves F d thread (.leave collection) collection (.held .leaving thread) .lost
  | taken {collection job : J} : F.parent job = some collection →
      Moves F d thread (.dequeueElement collection job false) job .queued
        (.held .taken thread)
  | discounted {collection job : J} : F.parent job = some collection →
      Moves F d thread (.discount collection job) job (.held .taken thread) .discounted

/-- The operation sets the status of the job. -/
inductive SetsStatus [DecidableEq J] (F : Forest J P σ) (d : Data J P T σ) :
    Op J → J → Status → Prop
  | enqueueJob {job : J} : SetsStatus F d (.enqueueJob job) job .queued
  | setRunning {job : J} : SetsStatus F d (.setRunning job) job .running
  | setStatus {job : J} {status : Status} : SetsStatus F d (.setStatus job status) job status
  | run {job : J} : SetsStatus F d (.run job) job (F.runStatus job)
  | update {collection job : J} :
      SetsStatus F d (.processCompletedElement collection job) collection (d.updatedStatus job)
  | restore {collection job : J} {status : Status} :
      SetsStatus F d (.restoreStatus collection job status) collection status
  | countDown {collection job : J} : d.jobCounter collection = 1 →
      SetsStatus F d (.countDown collection job) collection (d.finalStatus collection)
  | checkLast {collection : J} : d.jobCounter collection = 1 →
      SetsStatus F d (.checkLast collection) collection (d.finalStatus collection)
  | takeAt {job : J} : SetsStatus F d (.takeAt job) job .new

/-- The operation sets or clears the `api` of the collection. -/
inductive SetsApi (F : Forest J P σ) (d : Data J P T σ) : Op J → J → Bool → Prop
  | enqueueJob {collection : J} : F.kind collection ≠ .plain →
      SetsApi F d (.enqueueJob collection) collection true
  | countDown {collection job : J} : d.jobCounter collection = 1 →
      SetsApi F d (.countDown collection job) collection false
  | checkLast {collection : J} : d.jobCounter collection = 1 →
      SetsApi F d (.checkLast collection) collection false
  | resetApi {collection : J} : SetsApi F d (.resetApi collection) collection false

section Exec

variable [DecidableEq J] [DecidableEq P] {F : Forest J P σ} {s : State J P T σ}
  {thread : Thread T} {op : Op J} {rest : List (Op J)}

namespace State.Sound

/-- **Inversion.**  What an operation does to the place of a job. -/
theorem exec_place (hs : s.Sound F) (hstack : s.stack thread = op :: rest)
    (hfree : ∀ mutex, wants F op = some mutex → s.data.holder mutex = none) (job : J) :
    (exec F thread op s.data).1.place job = s.data.place job ∨
      Moves F s.data thread op job (s.data.place job)
        ((exec F thread op s.data).1.place job) := by
  have hop : op ∈ s.stack thread := by
    rw [hstack]
    exact List.mem_cons_self
  have hfits : Fits F op rest := by
    have hlayout := hs.layout thread
    rw [hstack] at hlayout
    exact hlayout.1
  -- the operation moves one job
  have hmoved : ∀ (moved : J) (before after : Place T),
      (exec F thread op s.data).1.place = Function.update s.data.place moved after →
      s.data.place moved = before → Moves F s.data thread op moved before after →
      (exec F thread op s.data).1.place job = s.data.place job ∨
        Moves F s.data thread op job (s.data.place job)
          ((exec F thread op s.data).1.place job) := by
    intro moved before after hplace hbefore hmoves
    rw [hplace]
    by_cases heq : job = moved
    · subst heq
      rw [Function.update_self, hbefore]
      exact .inr hmoves
    · exact .inl (Function.update_of_ne heq _ _)
  cases op with
  | applyForWork wasBusy => cases wasBusy <;> exact .inl rfl
  | takeFirst candidates =>
      cases candidates with
      | nil => exact .inl rfl
      | cons head candidates =>
          by_cases hcan : s.data.canBeExecuted F head = true
          · refine hmoved head _ _ ?_ (hs.queued_of_candidate hstack) .assigned
            simp only [exec, if_pos hcan]
            rfl
          · refine .inl ?_
            simp only [exec, if_neg hcan]
            rfl
  | enqueueJob head =>
      exact hmoved head _ _ rfl (hs.place_eq hop (by simp [Op.jobs])) .enqueued
  | finish =>
      refine .inl ?_
      simp only [exec]
      split <;> rfl
  | execute head =>
      refine hmoved head _ _ ?_ (hs.place_eq hop (by simp [Op.jobs])) .started
      simp only [exec]
      split <;> rfl
  | run head =>
      by_cases hkind : F.kind head = .plain
      · refine hmoved head _ _ ?_ (hs.place_eq hop (by simp [Op.jobs])) (.ending hkind)
        simp only [exec, if_pos hkind]
        rfl
      · refine .inl ?_
        simp only [exec, if_neg hkind]
        rfl
  | defaultEnd head =>
      have hplace : s.data.place head = .held .ending thread :=
        hs.place_eq hop (by simp [Op.jobs])
      cases hparent : F.parent head with
      | none =>
          refine hmoved head _ _ ?_ hplace (.ended hparent)
          simp only [exec, hparent]
          rfl
      | some collection =>
          refine hmoved head _ _ ?_ hplace (.reporting hparent)
          simp only [exec, hparent]
          rfl
  | elementFinished collection head =>
      rcases hs.of_elementFinished hop with ⟨rfl, hkind, hplace, hflag⟩ | ⟨-, -, -, hflag⟩
      · by_cases habort : s.data.shouldAbort head = true
        · refine hmoved head _ (.held .closing thread) ?_ hplace (.closing hkind)
          simp [exec, hflag, habort, Data.lock, Data.moveTo]
        · have hexec : (exec F thread (.elementFinished head head) s.data).1.place job =
              if job ∈ F.elements head then .held .pending thread
              else Function.update s.data.place head (.held .closing thread) job := by
            simp [exec, hflag, habort, Data.lock, Data.moveTo, Data.enqueueElements]
          rw [hexec]
          by_cases hmem : job ∈ F.elements head
          · have hparent := (F.mem_elements _ _).mp hmem
            have hfresh : s.data.place job = .fresh := by
              refine (hs.books.fresh _ _ hparent).mpr (hs.books.not_opened ?_)
              simp [Data.books, hplace, Place.isLate]
            rw [if_pos hmem, hfresh]
            exact .inr (.pending hparent hplace (by simpa using habort))
          · rw [if_neg hmem]
            by_cases heq : job = head
            · subst heq
              rw [Function.update_self, hplace]
              exact .inr (.closing hkind)
            · exact .inl (Function.update_of_ne heq _ _)
      · refine .inl ?_
        simp [exec, hflag, Data.lock]
  | processCompletedElement collection head =>
      refine .inl ?_
      simp only [exec]
      split
      · split <;> rfl
      · rfl
  | countDown collection head =>
      by_cases hlast : s.data.jobCounter collection - 1 = 0
      · have hexec : (exec F thread (.countDown collection head) s.data).1.place job =
            Function.update (Function.update s.data.place head
              (if head = collection then .waiting else .reported)) collection
                (.held .ending thread) job := by
          simp [exec, Data.count, Data.decJobCounter, Data.moveTo, hlast, Data.unlock,
            Data.finalCleanup, Data.freeQueuePolicyResources, Data.recordCalls, Data.record,
            Data.setStatus]
        have hone : s.data.jobCounter collection = 1 := by omega
        rw [hexec]
        rcases hs.of_completing hop (fun _ => Iff.rfl) rfl with
          ⟨rfl, hkind, hplace⟩ | ⟨hparent, hne, hplace⟩
        · by_cases heq : job = head
          · subst heq
            rw [Function.update_self, hplace]
            exact .inr (.endingSelf hkind hone)
          · exact .inl (by simp [heq])
        · by_cases heq : job = collection
          · subst heq
            have hwaiting : s.data.place job = .waiting :=
              hs.books.waiting_of_last hparent (by simp [Data.books, hplace, Place.isCounted])
                (by simp [Data.books, hplace]) hone
            rw [Function.update_self, hwaiting]
            exact .inr (.endingElement hparent hone)
          · rw [Function.update_of_ne heq, if_neg hne]
            by_cases heq' : job = head
            · subst heq'
              rw [Function.update_self, hplace]
              exact .inr (.reported hparent)
            · exact .inl (Function.update_of_ne heq' _ _)
      · have hexec : (exec F thread (.countDown collection head) s.data).1.place =
            Function.update s.data.place head
              (if head = collection then .waiting else .reported) := by
          simp [exec, Data.count, Data.decJobCounter, Data.moveTo, hlast, Data.unlock]
        rcases hs.of_completing hop (fun _ => Iff.rfl) rfl with
          ⟨rfl, hkind, hplace⟩ | ⟨hparent, hne, hplace⟩
        · rw [if_pos rfl] at hexec
          exact hmoved head _ _ hexec hplace (.waiting hkind (by omega))
        · rw [if_neg hne] at hexec
          exact hmoved head _ _ hexec hplace (.reported hparent)
  | dequeueSelf collection =>
      by_cases hmem : collection ∈ s.data.assignments
      · refine hmoved collection _ (.held .leaving thread) ?_
          (hs.queued_of_free (hfree _ rfl) hmem) (.leaving hfits)
        simp only [exec, if_pos hmem]
        rfl
      · refine .inl ?_
        simp only [exec, if_neg hmem]
  | leave collection =>
      have hplace : s.data.place collection = .held .leaving thread :=
        hs.place_eq hop (by simp [Op.jobs])
      by_cases hparent : F.parent collection = none
      · refine hmoved collection _ .fresh ?_ hplace (.again hparent)
        simp [exec, hparent, Data.moveTo]
      · refine hmoved collection _ .lost ?_ hplace (.lost hparent)
        simp [exec, hparent, Data.moveTo]
  | dequeueElement collection element locked =>
      by_cases hmem : element ∈ s.data.assignments
      · cases locked with
        | true => exact absurd hmem (hs.notMem_of_hook hop rfl)
        | false =>
            refine hmoved element _ (.held .taken thread) ?_
              (hs.queued_of_free (hfree _ rfl) hmem) (.taken hfits.1)
            simp only [exec, if_pos hmem]
            rfl
      · refine .inl ?_
        simp only [exec, if_neg hmem]
  | discount collection element =>
      exact hmoved element _ _ rfl (hs.place_eq hop (by simp [Op.jobs]))
        (.discounted hfits.1)
  | checkLast collection =>
      refine .inl ?_
      simp only [exec]
      split <;> rfl
  | aboutToBeDequeued head =>
      refine .inl ?_
      simp only [exec]
      split <;> rfl
  | _ => exact .inl rfl

theorem exec_isAssigned (hs : s.Sound F) (hstack : s.stack thread = op :: rest)
    (hfree : ∀ mutex, wants F op = some mutex → s.data.holder mutex = none) {job : J}
    (hafter : ((exec F thread op s.data).1.place job).isAssigned = true) :
    (s.data.place job).isAssigned = true ∨
      s.data.place job = .queued ∧ s.data.canBeExecuted F job = true ∧
        ∃ candidates, op = .takeFirst (job :: candidates) := by
  rcases hs.exec_place hstack hfree job with hsame | hmoves
  · exact .inl (hsame ▸ hafter)
  · by_cases hcan : s.data.canBeExecuted F job = true
    · generalize s.data.place job = before at hmoves ⊢
      generalize (exec F thread op s.data).1.place job = after at hafter hmoves
      cases hmoves with
      | assigned => exact .inr ⟨rfl, hcan, _, rfl⟩
      | enqueued | pending | leaving | again | lost | taken | discounted => cases hafter
      | _ => exact .inl rfl
    · left
      generalize hbefore : s.data.place job = before at hmoves ⊢
      generalize hplace : (exec F thread op s.data).1.place job = after at hafter hmoves
      cases hmoves with
      | assigned =>
          simp only [exec, if_neg hcan] at hplace
          exact absurd (hbefore.symm.trans hplace) (by simp)
      | enqueued | pending | leaving | again | lost | taken | discounted => cases hafter
      | _ => rfl

end State.Sound

/-- **Inversion.**  What an operation does to the status of a job. -/
theorem exec_status (F : Forest J P σ) (thread : Thread T) (op : Op J) (d : Data J P T σ)
    (job : J) :
    (exec F thread op d).1.status job = d.status job ∨
      SetsStatus F d op job ((exec F thread op d).1.status job) := by
  have hset : ∀ (head : J) (status : Status),
      (exec F thread op d).1.status = Function.update d.status head status →
      SetsStatus F d op head status →
      (exec F thread op d).1.status job = d.status job ∨
        SetsStatus F d op job ((exec F thread op d).1.status job) := by
    intro head status hstatus hsets
    rw [hstatus]
    by_cases heq : job = head
    · subst heq
      rw [Function.update_self]
      exact .inr hsets
    · exact .inl (Function.update_of_ne heq _ _)
  cases op with
  | applyForWork wasBusy => cases wasBusy <;> exact .inl rfl
  | takeFirst candidates =>
      refine .inl ?_
      cases candidates with
      | nil => rfl
      | cons head candidates =>
          simp only [exec]
          split <;> rfl
  | enqueueJob head => exact hset head _ rfl .enqueueJob
  | finish =>
      refine .inl ?_
      simp only [exec]
      split <;> rfl
  | execute head =>
      refine .inl ?_
      simp only [exec]
      split <;> rfl
  | setRunning head => exact hset head _ rfl .setRunning
  | setStatus head status => exact hset head _ rfl .setStatus
  | run head =>
      refine hset head _ ?_ .run
      simp only [exec]
      split <;> rfl
  | defaultEnd head =>
      refine .inl ?_
      simp only [exec]
      split <;> rfl
  | elementFinished collection head =>
      refine .inl ?_
      simp only [exec]
      split
      · split <;> rfl
      · rfl
  | processCompletedElement collection head =>
      refine hset collection _ ?_ .update
      simp only [exec]
      split
      · split <;> rfl
      · rfl
  | restoreStatus collection head status =>
      exact hset collection _ rfl .restore
  | countDown collection head =>
      by_cases hlast : d.jobCounter collection - 1 = 0
      · refine hset collection (d.finalStatus collection) ?_
          (.countDown (by omega))
        simp [exec, Data.count, Data.decJobCounter, Data.moveTo, hlast, Data.unlock,
          Data.finalCleanup, Data.freeQueuePolicyResources, Data.recordCalls, Data.record,
          Data.setStatus, Data.finalStatus]
      · refine .inl ?_
        simp [exec, Data.count, Data.decJobCounter, Data.moveTo, hlast, Data.unlock]
  | dequeueSelf collection =>
      refine .inl ?_
      simp only [exec]
      split <;> rfl
  | dequeueElement collection element locked =>
      refine .inl ?_
      simp only [exec]
      split
      · split <;> rfl
      · rfl
  | checkLast collection =>
      by_cases hlast : d.jobCounter collection = 1
      · refine hset collection (d.finalStatus collection) ?_ (.checkLast hlast)
        simp only [exec, if_pos hlast]
        rfl
      · refine .inl ?_
        simp only [exec, if_neg hlast]
  | aboutToBeDequeued head =>
      refine .inl ?_
      simp only [exec]
      split <;> rfl
  | takeAt head => exact hset head _ rfl .takeAt
  | _ => exact .inl rfl

/-- **Inversion.**  What an operation does to the `api` of a collection. -/
theorem exec_setsApi (F : Forest J P σ) (thread : Thread T) (op : Op J) (d : Data J P T σ)
    (collection : J) :
    (exec F thread op d).1.api collection = d.api collection ∧
        (∀ value, ¬ SetsApi F d op collection value) ∨
      SetsApi F d op collection ((exec F thread op d).1.api collection) := by
  have hsame : (exec F thread op d).1.api = d.api → (∀ value, ¬ SetsApi F d op collection value) →
      (exec F thread op d).1.api collection = d.api collection ∧
          (∀ value, ¬ SetsApi F d op collection value) ∨
        SetsApi F d op collection ((exec F thread op d).1.api collection) :=
    fun hsame hnone => .inl ⟨congrFun hsame collection, hnone⟩
  have hset : ∀ (head : J) (value : Bool),
      (exec F thread op d).1.api = Function.update d.api head value →
      SetsApi F d op head value → (∀ other value, SetsApi F d op other value → other = head) →
      (exec F thread op d).1.api collection = d.api collection ∧
          (∀ value, ¬ SetsApi F d op collection value) ∨
        SetsApi F d op collection ((exec F thread op d).1.api collection) := by
    intro head value hafter hsets honly
    by_cases heq : collection = head
    · subst heq
      rw [hafter, Function.update_self]
      exact .inr hsets
    · rw [hafter, Function.update_of_ne heq]
      exact .inl ⟨rfl, fun value h => heq (honly _ value h)⟩
  cases op with
  | applyForWork wasBusy => cases wasBusy <;> exact hsame rfl fun value h => by cases h
  | takeFirst candidates =>
      refine hsame ?_ fun value h => by cases h
      cases candidates with
      | nil => rfl
      | cons head candidates =>
          simp only [exec]
          split <;> rfl
  | enqueueJob head =>
      have hafter : (exec F thread (.enqueueJob head) d).1.api =
          if F.kind head = .plain then d.api else Function.update d.api head true := rfl
      by_cases hkind : F.kind head = .plain
      · rw [if_pos hkind] at hafter
        exact hsame hafter fun value h => by cases h; contradiction
      · rw [if_neg hkind] at hafter
        exact hset head true hafter (.enqueueJob hkind) fun _ _ h => by cases h; rfl
  | countDown head job =>
      by_cases hlast : d.jobCounter head = 1
      · refine hset head false ?_ (.countDown hlast) fun _ _ h => by cases h; rfl
        simp [exec, Data.count, Data.decJobCounter, Data.moveTo, hlast, Data.unlock,
          Data.finalCleanup, Data.freeQueuePolicyResources, Data.recordCalls, Data.record,
          Data.setStatus]
      · have hnot : ¬ d.jobCounter head - 1 = 0 := by omega
        refine hsame ?_ fun value h => by cases h; contradiction
        simp [exec, Data.count, Data.decJobCounter, Data.moveTo, hnot, Data.unlock]
  | checkLast head =>
      by_cases hlast : d.jobCounter head = 1
      · refine hset head false ?_ (.checkLast hlast) fun _ _ h => by cases h; rfl
        simp only [exec, if_pos hlast]
        rfl
      · refine hsame ?_ fun value h => by cases h; contradiction
        simp only [exec, if_neg hlast]
  | resetApi head => exact hset head false rfl .resetApi fun _ _ h => by cases h; rfl
  | processCompletedElement _ _ | elementFinished _ _ | dequeueElement _ _ _ =>
      refine hsame ?_ fun value h => by cases h
      simp only [exec]
      split
      · split <;> rfl
      · rfl
  | finish | execute _ | run _ | defaultEnd _ | dequeueSelf _ | aboutToBeDequeued _ =>
      refine hsame ?_ fun value h => by cases h
      simp only [exec]
      split <;> rfl
  | _ => exact hsame rfl fun value h => by cases h

theorem exec_api (F : Forest J P σ) (thread : Thread T) (op : Op J) (d : Data J P T σ)
    (collection : J) (hapi : (exec F thread op d).1.api collection = true) :
    F.kind collection ≠ .plain ∧ op = .enqueueJob collection ∨
      d.api collection = true ∧
        ¬ (d.jobCounter collection = 1 ∧ ∃ job, op = .countDown collection job) := by
  rcases exec_setsApi F thread op d collection with ⟨hsame, hnone⟩ | hsets
  · refine .inr ⟨hsame ▸ hapi, ?_⟩
    rintro ⟨hone, job, rfl⟩
    exact hnone false (.countDown hone)
  · rw [hapi] at hsets
    cases hsets with
    | enqueueJob hkind => exact .inl ⟨hkind, rfl⟩

/-- **Inversion.**  Only `requestAbort` sets the flag of a job, and nothing takes it back. -/
theorem exec_setsAbort (F : Forest J P σ) (thread : Thread T) (op : Op J) (d : Data J P T σ) :
    (∃ job, op = .requestAbort job ∧
        (exec F thread op d).1.shouldAbort = Function.update d.shouldAbort job true) ∨
      (exec F thread op d).1.shouldAbort = d.shouldAbort := by
  cases op with
  | requestAbort job => exact .inl ⟨job, rfl, rfl⟩
  | applyForWork wasBusy => cases wasBusy <;> exact .inr rfl
  | takeFirst candidates =>
      cases candidates with
      | nil => exact .inr rfl
      | cons head candidates =>
          simp only [exec]
          split <;> exact .inr rfl
  | processCompletedElement _ _ | elementFinished _ _ | dequeueElement _ _ _ =>
      simp only [exec]
      split
      · split <;> exact .inr rfl
      · exact .inr rfl
  | finish | execute _ | run _ | defaultEnd _ | dequeueSelf _ | aboutToBeDequeued _
  | countDown _ _ | checkLast _ =>
      simp only [exec]
      split <;> exact .inr rfl
  | _ => exact .inr rfl

theorem exec_shouldAbort (F : Forest J P σ) (thread : Thread T) (op : Op J) {d : Data J P T σ}
    {job : J} (h : d.shouldAbort job = true) :
    (exec F thread op d).1.shouldAbort job = true := by
  rcases exec_setsAbort F thread op d with ⟨aborted, -, hafter⟩ | hsame
  · rw [hafter, Function.update_apply, h]
    exact ite_self _
  · rw [hsame, h]

theorem exec_self (F : Forest J P σ) (thread : Thread T) (op : Op J) (d : Data J P T σ)
    (collection : J) (hself : (exec F thread op d).1.self collection = true) :
    F.kind collection ≠ .plain ∧ op = .execute collection ∨
      d.self collection = true ∧ op ≠ .clearSelf collection := by
  have hsame : (exec F thread op d).1.self = d.self → (∀ head, op ≠ .clearSelf head) →
      F.kind collection ≠ .plain ∧ op = .execute collection ∨
        d.self collection = true ∧ op ≠ .clearSelf collection := by
    intro hsame hne
    rw [hsame] at hself
    exact .inr ⟨hself, hne collection⟩
  cases op with
  | applyForWork wasBusy => cases wasBusy <;> exact hsame rfl (by simp)
  | takeFirst candidates =>
      refine hsame ?_ (by simp)
      cases candidates with
      | nil => rfl
      | cons head candidates =>
          simp only [exec]
          split <;> rfl
  | execute head =>
      by_cases hkind : F.kind head = .plain
      · refine hsame ?_ (by simp)
        simp only [exec, if_pos hkind]
        rfl
      · have hafter : (exec F thread (.execute head) d).1.self =
            Function.update d.self head true := by
          simp only [exec, if_neg hkind]
          rfl
        by_cases heq : collection = head
        · subst heq
          exact .inl ⟨hkind, rfl⟩
        · rw [hafter, Function.update_of_ne heq] at hself
          exact .inr ⟨hself, by simp⟩
  | clearSelf head =>
      have hafter : (exec F thread (.clearSelf head) d).1.self =
          Function.update d.self head false := rfl
      by_cases heq : collection = head
      · subst heq
        rw [hafter, Function.update_self] at hself
        cases hself
      · rw [hafter, Function.update_of_ne heq] at hself
        exact .inr ⟨hself, by simpa using Ne.symm heq⟩
  | processCompletedElement _ _ | elementFinished _ _ | dequeueElement _ _ _ =>
      refine hsame ?_ (by simp)
      simp only [exec]
      split
      · split <;> rfl
      · rfl
  | finish | run _ | defaultEnd _ | dequeueSelf _ | aboutToBeDequeued _ | countDown _ _
  | checkLast _ =>
      refine hsame ?_ (by simp)
      simp only [exec]
      split <;> rfl
  | _ => exact hsame rfl (by simp)

end Exec

/-! ## The log and the queue policies -/

/-- The operation frees the queue policies of the job, which has the status. -/
inductive Frees (d : Data J P T σ) : Op J → J → Status → Prop
  | countDown {collection job : J} : d.jobCounter collection = 1 →
      Frees d (.countDown collection job) collection (d.finalStatus collection)
  | checkLast {collection : J} : d.jobCounter collection = 1 →
      Frees d (.checkLast collection) collection (d.finalStatus collection)
  | defaultEnd {job : J} : Frees d (.defaultEnd job) job (d.status job)

section Exec

variable [DecidableEq J]

/-- What an operation records. -/
def Op.events (F : Forest J P σ) (thread : Thread T) (d : Data J P T σ) :
    Op J → List (Event J T)
  | applyForWork true =>
      if d.assignments.isEmpty ∧ d.active - 1 = 0 then [.finished] else []
  | takeFirst (job :: _) => if d.canBeExecuted F job then [.assigned thread job] else []
  | enqueueJob job => [.enqueued job]
  | finish => if d.isIdleP then [.finishReturned thread] else []
  | execute job => [.started job]
  | defaultEnd job => [.ended job (d.status job)]
  | countDown collection _ | checkLast collection =>
      if d.jobCounter collection = 1 then [.cleanedUp collection] else []
  | dequeueSelf job | dequeueElement _ job _ =>
      if job ∈ d.assignments then [.dequeued job] else []
  | _ => []

variable [DecidableEq P]

theorem exec_log (F : Forest J P σ) (thread : Thread T) (op : Op J) (d : Data J P T σ) :
    (exec F thread op d).1.log = d.log ++ op.events F thread d := by
  have hsame : (exec F thread op d).1.log = d.log → op.events F thread d = [] →
      (exec F thread op d).1.log = d.log ++ op.events F thread d := by
    intro hlog hnone
    rw [hlog, hnone, List.append_nil]
  cases op with
  | applyForWork wasBusy =>
      cases wasBusy with
      | false => exact hsame rfl rfl
      | true =>
          by_cases hlast : d.assignments.isEmpty ∧ d.active - 1 = 0
          · simp [exec, Data.decActiveThreadCount, Op.events, Data.lock, hlast]
          · simp only [Op.events, if_neg hlast, List.append_nil]
            exact if_neg hlast
  | takeFirst candidates =>
      cases candidates with
      | nil => exact hsame rfl rfl
      | cons job candidates =>
          by_cases hcan : d.canBeExecuted F job = true
          · simp only [exec, Op.events, if_pos hcan]
            rfl
          · refine hsame ?_ ?_
            · simp only [exec, if_neg hcan]
              rfl
            · simp only [Op.events, if_neg hcan]
  | enqueueJob job => rfl
  | finish =>
      by_cases hidle : d.isIdleP = true
      · simp only [exec, Op.events, if_pos hidle]
        rfl
      · simp only [exec, Op.events, if_neg hidle, List.append_nil]
  | execute job =>
      simp only [exec, Op.events]
      split <;> rfl
  | run job =>
      refine hsame ?_ rfl
      simp only [exec]
      split <;> rfl
  | defaultEnd job =>
      simp only [exec, Op.events]
      split <;> rfl
  | countDown collection job =>
      by_cases hlast : d.jobCounter collection = 1
      · simp [exec, Op.events, Data.count, Data.decJobCounter, Data.moveTo, hlast, Data.unlock,
          Data.finalCleanup, Data.freeQueuePolicyResources, Data.recordCalls, Data.record,
          Data.setStatus]
      · have hnot : ¬ d.jobCounter collection - 1 = 0 := by omega
        simp [exec, Op.events, Data.count, Data.decJobCounter, Data.moveTo, hlast, hnot,
          Data.unlock]
  | dequeueSelf job =>
      by_cases hmem : job ∈ d.assignments
      · simp only [exec, Op.events, if_pos hmem]
        rfl
      · simp only [exec, Op.events, if_neg hmem, List.append_nil]
  | dequeueElement collection job locked =>
      by_cases hmem : job ∈ d.assignments
      · simp only [exec, Op.events, if_pos hmem]
        split <;> rfl
      · simp only [exec, Op.events, if_neg hmem, List.append_nil]
  | checkLast collection =>
      by_cases hlast : d.jobCounter collection = 1
      · simp only [exec, Op.events, if_pos hlast]
        rfl
      · simp only [exec, Op.events, if_neg hlast, List.append_nil]
  | processCompletedElement _ _ | elementFinished _ _ =>
      refine hsame ?_ rfl
      simp only [exec]
      split
      · split <;> rfl
      · rfl
  | aboutToBeDequeued _ =>
      refine hsame ?_ rfl
      simp only [exec]
      split <;> rfl
  | _ => exact hsame rfl rfl

/-- What an operation records, with what it needs for that. -/
inductive Records (F : Forest J P σ) (d : Data J P T σ) (thread : Thread T) :
    Op J → Event J T → Prop
  | finished : d.assignments.isEmpty = true → d.active - 1 = 0 →
      Records F d thread (.applyForWork true) .finished
  | assigned {job : J} {candidates : List J} : d.canBeExecuted F job = true →
      Records F d thread (.takeFirst (job :: candidates)) (.assigned thread job)
  | enqueued {job : J} : Records F d thread (.enqueueJob job) (.enqueued job)
  | finishReturned : d.isIdleP = true → Records F d thread .finish (.finishReturned thread)
  | started {job : J} : Records F d thread (.execute job) (.started job)
  | ended {job : J} : Records F d thread (.defaultEnd job) (.ended job (d.status job))
  | cleanedUp {collection job : J} : d.jobCounter collection = 1 →
      Records F d thread (.countDown collection job) (.cleanedUp collection)
  | cleanedUpLast {collection : J} : d.jobCounter collection = 1 →
      Records F d thread (.checkLast collection) (.cleanedUp collection)
  | dequeuedSelf {collection : J} : collection ∈ d.assignments →
      Records F d thread (.dequeueSelf collection) (.dequeued collection)
  | dequeued {collection element : J} {locked : Bool} : element ∈ d.assignments →
      Records F d thread (.dequeueElement collection element locked) (.dequeued element)

/-- **Inversion.**  An operation records at most one event. -/
theorem exec_records (F : Forest J P σ) (thread : Thread T) (op : Op J) (d : Data J P T σ) :
    (exec F thread op d).1.log = d.log ∨
      ∃ event, Records F d thread op event ∧ (exec F thread op d).1.log = d.log ++ [event] := by
  rw [exec_log]
  have hnone : op.events F thread d = [] →
      d.log ++ op.events F thread d = d.log ∨ ∃ event, Records F d thread op event ∧
        d.log ++ op.events F thread d = d.log ++ [event] := by
    intro h
    exact .inl (by rw [h, List.append_nil])
  have hone : ∀ event, op.events F thread d = [event] → Records F d thread op event →
      d.log ++ op.events F thread d = d.log ∨ ∃ event, Records F d thread op event ∧
        d.log ++ op.events F thread d = d.log ++ [event] :=
    fun event h hrecords => .inr ⟨event, hrecords, by rw [h]⟩
  cases op with
  | applyForWork wasBusy =>
      cases wasBusy with
      | false => exact hnone rfl
      | true =>
          by_cases hlast : d.assignments.isEmpty = true ∧ d.active - 1 = 0
          · exact hone _ (if_pos hlast) (.finished hlast.1 hlast.2)
          · exact hnone (if_neg hlast)
  | takeFirst candidates =>
      cases candidates with
      | nil => exact hnone rfl
      | cons job candidates =>
          by_cases hcan : d.canBeExecuted F job = true
          · exact hone _ (if_pos hcan) (.assigned hcan)
          · exact hnone (if_neg hcan)
  | enqueueJob job => exact hone _ rfl .enqueued
  | finish =>
      by_cases hidle : d.isIdleP = true
      · exact hone _ (if_pos hidle) (.finishReturned hidle)
      · exact hnone (if_neg hidle)
  | execute job => exact hone _ rfl .started
  | defaultEnd job => exact hone _ rfl .ended
  | countDown collection job =>
      by_cases hlast : d.jobCounter collection = 1
      · exact hone _ (if_pos hlast) (.cleanedUp hlast)
      · exact hnone (if_neg hlast)
  | checkLast collection =>
      by_cases hlast : d.jobCounter collection = 1
      · exact hone _ (if_pos hlast) (.cleanedUpLast hlast)
      · exact hnone (if_neg hlast)
  | dequeueSelf collection =>
      by_cases hmem : collection ∈ d.assignments
      · exact hone _ (if_pos hmem) (.dequeuedSelf hmem)
      · exact hnone (if_neg hmem)
  | dequeueElement collection element locked =>
      by_cases hmem : element ∈ d.assignments
      · exact hone _ (if_pos hmem) (.dequeued hmem)
      · exact hnone (if_neg hmem)
  | _ => exact hnone rfl

theorem exec_mem_log (F : Forest J P σ) (thread : Thread T) (op : Op J) (d : Data J P T σ)
    {event : Event J T} (h : event ∈ (exec F thread op d).1.log) :
    event ∈ d.log ∨ Records F d thread op event := by
  rcases exec_records F thread op d with hsame | ⟨recorded, hrecords, hlog⟩
  · exact .inl (hsame ▸ h)
  · rw [hlog] at h
    rcases List.mem_append.mp h with hold | hnew
    · exact .inl hold
    · exact .inr (List.mem_singleton.mp hnew ▸ hrecords)

/-- **Inversion.**  Who calls queue policies. -/
theorem exec_policies (F : Forest J P σ) (thread : Thread T) (op : Op J) (d : Data J P T σ) :
    ((exec F thread op d).1.policyState = d.policyState ∧
        (exec F thread op d).1.calls = d.calls ∧
        (∀ job candidates, op ≠ .takeFirst (job :: candidates)) ∧
        ∀ job status, ¬ Frees d op job status) ∨
      (∃ job candidates, op = .takeFirst (job :: candidates) ∧
        (exec F thread op d).1.policyState = (d.askPolicies F job).policyState ∧
        (exec F thread op d).1.calls = (d.askPolicies F job).calls) ∨
      ∃ job status, Frees d op job status ∧
        (exec F thread op d).1.policyState = (d.queuePolicies job).foldl
          (fun state policy => (withBlocker F.policies).free policy job status state)
          d.policyState ∧
        (exec F thread op d).1.calls = Function.update d.calls job
          (d.calls job ++ (d.queuePolicies job).map .free) := by
  cases op with
  | applyForWork wasBusy =>
      cases wasBusy <;> exact .inl ⟨rfl, rfl, by simp, fun _ _ h => by cases h⟩
  | takeFirst candidates =>
      cases candidates with
      | nil => exact .inl ⟨rfl, rfl, by simp, fun _ _ h => by cases h⟩
      | cons job candidates =>
          refine .inr (.inl ⟨job, candidates, rfl, ?_⟩)
          simp only [exec]
          split <;> exact ⟨rfl, rfl⟩
  | defaultEnd job =>
      refine .inr (.inr ⟨job, d.status job, .defaultEnd, ?_⟩)
      simp only [exec]
      split <;> exact ⟨rfl, rfl⟩
  | countDown collection job =>
      by_cases hlast : d.jobCounter collection = 1
      · refine .inr (.inr ⟨collection, d.finalStatus collection, .countDown hlast, ?_⟩)
        simp [exec, Data.count, Data.decJobCounter, Data.moveTo, hlast, Data.unlock,
          Data.finalCleanup, Data.freeQueuePolicyResources, Data.recordCalls, Data.record,
          Data.setStatus, Data.finalStatus]
      · have hnot : ¬ d.jobCounter collection - 1 = 0 := by omega
        have hfrees : ∀ head status, ¬ Frees d (.countDown collection job) head status := by
          intro head status hfrees
          cases hfrees
          contradiction
        refine .inl ⟨?_, ?_, by simp, hfrees⟩ <;>
          simp [exec, Data.count, Data.decJobCounter, Data.moveTo, hnot, Data.unlock]
  | checkLast collection =>
      by_cases hlast : d.jobCounter collection = 1
      · refine .inr (.inr ⟨collection, d.finalStatus collection, .checkLast hlast, ?_⟩)
        simp [exec, hlast, Data.finalCleanup, Data.freeQueuePolicyResources, Data.recordCalls,
          Data.record, Data.setStatus]
      · have hfrees : ∀ head status, ¬ Frees d (.checkLast collection) head status := by
          intro head status hfrees
          cases hfrees
          contradiction
        refine .inl ⟨?_, ?_, by simp, hfrees⟩ <;> simp only [exec, if_neg hlast]
  | processCompletedElement _ _ | elementFinished _ _ | dequeueElement _ _ _ =>
      refine .inl ⟨?_, ?_, by simp, fun _ _ h => by cases h⟩ <;> simp only [exec]
      · split
        · split <;> rfl
        · rfl
      · split
        · split <;> rfl
        · rfl
  | finish | execute _ | run _ | dequeueSelf _ | aboutToBeDequeued _ =>
      refine .inl ⟨?_, ?_, by simp, fun _ _ h => by cases h⟩ <;> simp only [exec] <;>
        split <;> rfl
  | _ => exact .inl ⟨rfl, rfl, by simp, fun _ _ h => by cases h⟩

theorem exec_queuePolicies (F : Forest J P σ) (thread : Thread T) (op : Op J)
    (d : Data J P T σ) (job : J) :
    (exec F thread op d).1.queuePolicies job = d.queuePolicies job ∨
      op = .assignBlocker job ∧ (exec F thread op d).1.queuePolicies job =
        Weaver.State.assignQueuePolicy (d.queuePolicies job) none ∨
      op = .removeBlocker job ∧ (exec F thread op d).1.queuePolicies job =
        Weaver.State.removeQueuePolicy (d.queuePolicies job) none := by
  cases op with
  | applyForWork wasBusy => cases wasBusy <;> exact .inl rfl
  | takeFirst candidates =>
      refine .inl ?_
      cases candidates with
      | nil => rfl
      | cons head candidates =>
          simp only [exec]
          split <;> rfl
  | assignBlocker element =>
      by_cases heq : job = element
      · subst heq
        exact .inr (.inl ⟨rfl, Function.update_self _ _ _⟩)
      · exact .inl (Function.update_of_ne heq _ _)
  | removeBlocker element =>
      by_cases heq : job = element
      · subst heq
        exact .inr (.inr ⟨rfl, Function.update_self _ _ _⟩)
      · exact .inl (Function.update_of_ne heq _ _)
  | processCompletedElement _ _ | elementFinished _ _ | dequeueElement _ _ _ =>
      refine .inl ?_
      simp only [exec]
      split
      · split <;> rfl
      · rfl
  | finish | execute _ | run _ | defaultEnd _ | dequeueSelf _ | aboutToBeDequeued _
  | countDown _ _ | checkLast _ =>
      refine .inl ?_
      simp only [exec]
      split <;> rfl
  | _ => exact .inl rfl

theorem exec_completed (F : Forest J P σ) (thread : Thread T) (op : Op J) (d : Data J P T σ)
    (collection : J) :
    (∀ job, op ≠ .advance collection job) ∧
        (exec F thread op d).1.completed collection = d.completed collection ∨
      (∃ job, op = .elementFinished collection job ∧ d.selfIsExecuting collection = true ∧
        (exec F thread op d).1.completed collection = 0) ∨
      ∃ job, op = .advance collection job ∧
        (exec F thread op d).1.completed collection = d.completed collection + 1 := by
  cases op with
  | applyForWork wasBusy => cases wasBusy <;> exact .inl ⟨by simp, rfl⟩
  | takeFirst candidates =>
      refine .inl ⟨by simp, ?_⟩
      cases candidates with
      | nil => rfl
      | cons head candidates =>
          simp only [exec]
          split <;> rfl
  | elementFinished other job =>
      by_cases hself : d.selfIsExecuting other = true
      · by_cases habort : d.shouldAbort other = true
        · refine .inl ⟨by simp, ?_⟩
          simp [exec, hself, habort, Data.lock, Data.moveTo]
        · by_cases hkind : F.kind other = .sequence
          · by_cases heq : collection = other
            · subst heq
              refine .inr (.inl ⟨job, rfl, hself, ?_⟩)
              simp [exec, hself, habort, hkind, Data.lock, Data.moveTo, Data.enqueueElements]
            · refine .inl ⟨by simp, ?_⟩
              simp [exec, hself, habort, hkind, Data.lock, Data.moveTo, Data.enqueueElements, heq]
          · refine .inl ⟨by simp, ?_⟩
            simp [exec, hself, habort, hkind, Data.lock, Data.moveTo, Data.enqueueElements]
      · refine .inl ⟨by simp, ?_⟩
        simp [exec, hself, Data.lock]
  | advance other job =>
      by_cases heq : collection = other
      · subst heq
        exact .inr (.inr ⟨job, rfl, Function.update_self _ _ _⟩)
      · refine .inl ⟨fun head h => heq (Op.advance.inj h).1.symm, ?_⟩
        exact Function.update_of_ne heq _ _
  | processCompletedElement _ _ | dequeueElement _ _ _ =>
      refine .inl ⟨by simp, ?_⟩
      simp only [exec]
      split
      · split <;> rfl
      · rfl
  | finish | execute _ | run _ | defaultEnd _ | dequeueSelf _ | aboutToBeDequeued _
  | countDown _ _ | checkLast _ =>
      refine .inl ⟨by simp, ?_⟩
      simp only [exec]
      split <;> rfl
  | _ => exact .inl ⟨by simp, rfl⟩

end Exec

/-! ## What is left to be done -/

/-- The first operation leaves the second one to be done. -/
inductive Calls [DecidableEq J] (F : Forest J P σ) (d : Data J P T σ) : Op J → Op J → Prop
  -- the queue
  | takeFirst {wasBusy : Bool} {candidates : List J} :
      Calls F d (.applyForWork wasBusy) (.takeFirst candidates)
  | takeNext {job : J} {candidates : List J} :
      Calls F d (.takeFirst (job :: candidates)) (.takeFirst candidates)
  | wait : Calls F d (.takeFirst []) (.applyForWork false)
  | execute {job : J} {candidates : List J} : d.canBeExecuted F job = true →
      Calls F d (.takeFirst (job :: candidates)) (.execute job)
  | applyForWork {job : J} {candidates : List J} : d.canBeExecuted F job = true →
      Calls F d (.takeFirst (job :: candidates)) (.applyForWork true)
  | enqueueJob {jobs : List J} {job : J} : job ∈ jobs →
      Calls F d (.enqueue jobs) (.enqueueJob job)
  | unlockEnqueue {jobs : List J} : Calls F d (.enqueue jobs) (.unlock .weaver)
  | finish : Calls F d .finish .finish
  -- the execution of a job
  | beginElement {job collection : J} : F.kind job = .plain → F.parent job = some collection →
      Calls F d (.execute job) (.elementStarted collection)
  | beginSelf {collection : J} : F.kind collection ≠ .plain →
      Calls F d (.execute collection) (.elementStarted collection)
  | setRunning {job : J} : Calls F d (.execute job) (.setRunning job)
  | callBegin {collection outer : J} : d.jobsStarted collection = 0 →
      F.parent collection = some outer →
      Calls F d (.elementStarted collection) (.elementStarted outer)
  | unlockStarted {collection : J} :
      Calls F d (.elementStarted collection) (.unlock (.job collection))
  | setStatus {job : J} {status : Status} : F.statusInRun job = some status →
      Calls F d (.setRunning job) (.setStatus job status)
  | run {job : J} : Calls F d (.setRunning job) (.run job)
  | defaultEnd {job : J} : F.kind job = .plain → Calls F d (.run job) (.defaultEnd job)
  | finishSelf {collection : J} : F.kind collection ≠ .plain →
      Calls F d (.run collection) (.elementFinished collection collection)
  | finishElement {job collection : J} : F.parent job = some collection →
      Calls F d (.defaultEnd job) (.elementFinished collection job)
  -- the completion of an element, or of the own job of a collection
  | assignBlocker {collection job element : J} : d.selfIsExecuting collection = true →
      F.kind collection = .sequence → F.parent element = some collection →
      Calls F d (.elementFinished collection job) (.assignBlocker element)
  | enqueue {collection job : J} : d.selfIsExecuting collection = true →
      Calls F d (.elementFinished collection job) (.enqueue (F.elements collection))
  | process {collection job : J} :
      Calls F d (.elementFinished collection job) (.processCompletedElement collection job)
  | stopSelf {collection job : J} : F.kind collection = .sequence →
      d.updatedStatus job ≠ .running →
      Calls F d (.processCompletedElement collection job) (.stop collection)
  | restoreStatus {collection job : J} : F.kind collection = .sequence →
      d.updatedStatus job ≠ .running →
      Calls F d (.processCompletedElement collection job)
        (.restoreStatus collection job (d.updatedStatus job))
  | advance {collection job : J} : F.kind collection = .sequence →
      d.updatedStatus job = .running →
      Calls F d (.processCompletedElement collection job) (.advance collection job)
  | countDown {collection job : J} : F.kind collection ≠ .sequence →
      Calls F d (.processCompletedElement collection job) (.countDown collection job)
  | advanceRestored {collection job : J} {status : Status} :
      Calls F d (.restoreStatus collection job status) (.advance collection job)
  | unblock {collection job element : J} :
      (F.elements collection)[d.completed collection]? = some element →
      Calls F d (.advance collection job) (.removeBlocker element)
  | countDownAdvanced {collection job : J} :
      Calls F d (.advance collection job) (.countDown collection job)
  | endCollection {collection job : J} : d.jobCounter collection = 1 →
      Calls F d (.countDown collection job) (.defaultEnd collection)
  | clearSelf {collection job : J} : d.jobCounter collection = 1 →
      Calls F d (.countDown collection job) (.clearSelf collection)
  -- stop
  | dequeueSelf {collection : J} : d.api collection = true →
      Calls F d (.stop collection) (.dequeueSelf collection)
  | leaveHook {collection : J} : collection ∈ d.assignments →
      Calls F d (.dequeueSelf collection) (.aboutToBeDequeued collection)
  | leaveTakeAt {collection : J} : collection ∈ d.assignments →
      Calls F d (.dequeueSelf collection) (.takeAt collection)
  | leaveUnlock {collection : J} : collection ∈ d.assignments →
      Calls F d (.dequeueSelf collection) (.unlock .weaver)
  | leave {collection : J} : collection ∈ d.assignments →
      Calls F d (.dequeueSelf collection) (.leave collection)
  | stopElements {collection : J} : collection ∉ d.assignments →
      Calls F d (.dequeueSelf collection) (.stopElements collection)
  | dequeueElements {collection : J} :
      Calls F d (.stopElements collection) (.dequeueElements collection false)
  | unlockStopped {collection : J} :
      Calls F d (.stopElements collection) (.unlock (.job collection))
  | dequeueElement {collection element : J} {locked : Bool} : d.api collection = true →
      F.parent element = some collection →
      Calls F d (.dequeueElements collection locked) (.dequeueElement collection element locked)
  | checkLast {collection : J} {locked : Bool} : d.api collection = true →
      Calls F d (.dequeueElements collection locked) (.checkLast collection)
  | takeHook {collection element : J} {locked : Bool} : element ∈ d.assignments →
      Calls F d (.dequeueElement collection element locked) (.aboutToBeDequeued element)
  | takeAt {collection element : J} {locked : Bool} : element ∈ d.assignments →
      Calls F d (.dequeueElement collection element locked) (.takeAt element)
  | takeUnlock {collection element : J} : element ∈ d.assignments →
      Calls F d (.dequeueElement collection element false) (.unlock .weaver)
  | discount {collection element : J} {locked : Bool} : element ∈ d.assignments →
      Calls F d (.dequeueElement collection element locked) (.discount collection element)
  | elementDequeued {collection element : J} {locked : Bool} : F.kind collection = .sequence →
      Calls F d (.dequeueElement collection element locked) (.removeBlocker element)
  | hookElements {collection : J} : F.kind collection ≠ .plain →
      Calls F d (.aboutToBeDequeued collection) (.dequeueElements collection true)
  | resetApi {collection : J} : F.kind collection ≠ .plain →
      Calls F d (.aboutToBeDequeued collection) (.resetApi collection)
  -- requestAbort
  | abortStop {collection : J} : F.kind collection ≠ .plain →
      Calls F d (.requestAbort collection) (.stop collection)
  | abortElements {collection : J} : F.kind collection ≠ .plain →
      Calls F d (.requestAbort collection) (.abortElements collection)
  | abortElement {collection element : J} : F.parent element = some collection →
      Calls F d (.abortElements collection) (.abortElement element)
  | unlockAborted {collection : J} :
      Calls F d (.abortElements collection) (.unlock (.job collection))
  | requestAbort {element : J} : (d.status element).toNat ≤ Status.running.toNat →
      Calls F d (.abortElement element) (.requestAbort element)

section Exec

variable [DecidableEq J] [DecidableEq P]

/-- **Inversion.**  What an operation leaves to be done. -/
theorem exec_calls (F : Forest J P σ) (thread : Thread T) (op : Op J) (d : Data J P T σ)
    {later : Op J} (hmem : later ∈ (exec F thread op d).2) : Calls F d op later := by
  cases op with
  | applyForWork wasBusy =>
      obtain rfl := List.mem_singleton.mp hmem
      exact .takeFirst
  | takeFirst candidates =>
      cases candidates with
      | nil =>
          obtain rfl := List.mem_singleton.mp hmem
          exact .wait
      | cons job candidates =>
          simp only [exec] at hmem
          split at hmem
          · rename_i hcan
            simp only [List.mem_cons, List.not_mem_nil, or_false] at hmem
            rcases hmem with rfl | rfl
            · exact .execute hcan
            · exact .applyForWork hcan
          · obtain rfl := List.mem_singleton.mp hmem
            exact .takeNext
  | enqueue jobs =>
      simp only [exec, List.mem_append, List.mem_map, List.mem_singleton] at hmem
      rcases hmem with ⟨job, hjob, rfl⟩ | rfl
      · exact .enqueueJob hjob
      · exact .unlockEnqueue
  | finish =>
      simp only [exec] at hmem
      split at hmem
      · cases hmem
      · obtain rfl := List.mem_singleton.mp hmem
        exact .finish
  | execute job =>
      simp only [exec] at hmem
      split at hmem
      · rename_i hkind
        simp only [beginElement, List.mem_append, List.mem_map, Option.mem_toList,
          List.mem_singleton] at hmem
        rcases hmem with ⟨collection, hparent, rfl⟩ | rfl
        · exact .beginElement hkind hparent
        · exact .setRunning
      · rename_i hkind
        simp only [List.mem_cons, List.not_mem_nil, or_false] at hmem
        rcases hmem with rfl | rfl
        · exact .beginSelf hkind
        · exact .setRunning
  | elementStarted collection =>
      simp only [exec, List.mem_append, List.mem_singleton] at hmem
      rcases hmem with hbegin | rfl
      · split at hbegin
        · rename_i hfirst
          simp only [beginElement, List.mem_map, Option.mem_toList] at hbegin
          obtain ⟨outer, hparent, rfl⟩ := hbegin
          exact .callBegin hfirst hparent
        · cases hbegin
      · exact .unlockStarted
  | setRunning job =>
      simp only [exec, List.mem_append, mem_setInRun, List.mem_singleton] at hmem
      rcases hmem with ⟨status, hstatus, rfl⟩ | rfl
      · exact .setStatus hstatus
      · exact .run
  | run job =>
      simp only [exec] at hmem
      split at hmem
      · rename_i hkind
        obtain rfl := List.mem_singleton.mp hmem
        exact .defaultEnd hkind
      · rename_i hkind
        obtain rfl := List.mem_singleton.mp hmem
        exact .finishSelf hkind
  | defaultEnd job =>
      simp only [exec] at hmem
      split at hmem
      · cases hmem
      · rename_i collection hparent
        obtain rfl := List.mem_singleton.mp hmem
        exact .finishElement hparent
  | elementFinished collection job =>
      simp only [exec] at hmem
      split at hmem
      · rename_i hflag
        split at hmem
        · obtain rfl := List.mem_singleton.mp hmem
          exact .process
        · simp only [List.mem_append, List.mem_cons, List.not_mem_nil, or_false] at hmem
          rcases hmem with hblocker | rfl | rfl
          · split at hblocker
            · rename_i hkind
              obtain ⟨element, helement, rfl⟩ := List.mem_map.mp hblocker
              exact .assignBlocker hflag hkind ((F.mem_elements _ _).mp helement)
            · cases hblocker
          · exact .enqueue hflag
          · exact .process
      · obtain rfl := List.mem_singleton.mp hmem
        exact .process
  | processCompletedElement collection job =>
      simp only [exec] at hmem
      split at hmem
      · rename_i hkind
        split at hmem
        · rename_i hstatus
          obtain rfl := List.mem_singleton.mp hmem
          exact .advance hkind hstatus
        · rename_i hstatus
          simp only [List.mem_cons, List.not_mem_nil, or_false] at hmem
          rcases hmem with rfl | rfl
          · exact .stopSelf hkind hstatus
          · exact .restoreStatus hkind hstatus
      · rename_i hkind
        obtain rfl := List.mem_singleton.mp hmem
        exact .countDown hkind
  | restoreStatus collection job status =>
      obtain rfl := List.mem_singleton.mp hmem
      exact .advanceRestored
  | advance collection job =>
      simp only [exec, List.mem_append, List.mem_map, Option.mem_toList,
        List.mem_singleton] at hmem
      rcases hmem with ⟨element, helement, rfl⟩ | rfl
      · exact .unblock helement
      · exact .countDownAdvanced
  | countDown collection job =>
      by_cases hlast : d.jobCounter collection = 1
      · have hcount : d.jobCounter collection - 1 = 0 := by omega
        simp only [exec, Data.count, Data.moveTo, Data.decJobCounter, Function.update_self,
          if_pos hcount, List.mem_cons, List.not_mem_nil, or_false] at hmem
        rcases hmem with rfl | rfl
        · exact .endCollection hlast
        · exact .clearSelf hlast
      · have hcount : ¬ d.jobCounter collection - 1 = 0 := by omega
        simp only [exec, Data.count, Data.moveTo, Data.decJobCounter, Function.update_self,
          if_neg hcount, List.not_mem_nil] at hmem
  | stop collection =>
      simp only [exec] at hmem
      split at hmem
      · rename_i hapi
        obtain rfl := List.mem_singleton.mp hmem
        exact .dequeueSelf hapi
      · cases hmem
  | dequeueSelf collection =>
      simp only [exec] at hmem
      split at hmem
      · rename_i hlisted
        simp only [List.mem_cons, List.not_mem_nil, or_false] at hmem
        rcases hmem with rfl | rfl | rfl | rfl
        · exact .leaveHook hlisted
        · exact .leaveTakeAt hlisted
        · exact .leaveUnlock hlisted
        · exact .leave hlisted
      · rename_i hlisted
        obtain rfl := List.mem_singleton.mp hmem
        exact .stopElements hlisted
  | stopElements collection =>
      simp only [exec, List.mem_cons, List.not_mem_nil, or_false] at hmem
      rcases hmem with rfl | rfl
      · exact .dequeueElements
      · exact .unlockStopped
  | dequeueElements collection locked =>
      simp only [exec] at hmem
      split at hmem
      · rename_i hapi
        simp only [List.mem_append, List.mem_map, List.mem_singleton] at hmem
        rcases hmem with ⟨element, helement, rfl⟩ | rfl
        · exact .dequeueElement hapi ((F.mem_elements _ _).mp helement)
        · exact .checkLast hapi
      · cases hmem
  | dequeueElement collection element locked =>
      have hblocker : later ∈ elementDequeued F collection element →
          Calls F d (.dequeueElement collection element locked) later := by
        intro hlater
        simp only [elementDequeued] at hlater
        split at hlater
        · rename_i hkind
          obtain rfl := List.mem_singleton.mp hlater
          exact .elementDequeued hkind
        · cases hlater
      simp only [exec] at hmem
      split at hmem
      · rename_i hlisted
        cases locked with
        | true =>
            simp only [if_true, List.mem_append, List.mem_cons, List.not_mem_nil,
              or_false] at hmem
            rcases hmem with (rfl | rfl | rfl) | hlater
            · exact .takeHook hlisted
            · exact .takeAt hlisted
            · exact .discount hlisted
            · exact hblocker hlater
        | false =>
            simp only [Bool.false_eq_true, if_false, List.mem_append, List.mem_cons,
              List.not_mem_nil, or_false] at hmem
            rcases hmem with (rfl | rfl | rfl | rfl) | hlater
            · exact .takeHook hlisted
            · exact .takeAt hlisted
            · exact .takeUnlock hlisted
            · exact .discount hlisted
            · exact hblocker hlater
      · exact hblocker hmem
  | aboutToBeDequeued job =>
      simp only [exec] at hmem
      split at hmem
      · cases hmem
      · rename_i hkind
        simp only [List.mem_cons, List.not_mem_nil, or_false] at hmem
        rcases hmem with rfl | rfl
        · exact .hookElements hkind
        · exact .resetApi hkind
  | requestAbort job =>
      simp only [exec] at hmem
      split at hmem
      · cases hmem
      · rename_i hkind
        simp only [List.mem_cons, List.not_mem_nil, or_false] at hmem
        rcases hmem with rfl | rfl
        · exact .abortStop hkind
        · exact .abortElements hkind
  | abortElements collection =>
      simp only [exec, List.mem_append, List.mem_map, List.mem_singleton] at hmem
      rcases hmem with ⟨element, helement, rfl⟩ | rfl
      · exact .abortElement ((F.mem_elements _ _).mp helement)
      · exact .unlockAborted
  | abortElement element =>
      simp only [exec] at hmem
      split at hmem
      · rename_i hstatus
        obtain rfl := List.mem_singleton.mp hmem
        exact .requestAbort hstatus
      · cases hmem
  | _ => cases hmem

theorem State.mem_exec [DecidableEq T] {F : Forest J P σ} {s : State J P T σ}
    {thread other : Thread T} {op later : Op J} {rest : List (Op J)}
    (hstack : s.stack thread = op :: rest)
    (hmem : later ∈
      Function.update s.stack thread ((exec F thread op s.data).2 ++ rest) other) :
    other = thread ∧ Calls F s.data op later ∨
      later ∈ s.stack other ∧ (other = thread → later ∈ rest) := by
  by_cases hother : other = thread
  · subst hother
    rw [Function.update_self] at hmem
    rcases List.mem_append.mp hmem with hnew | hrest
    · exact .inl ⟨rfl, exec_calls F other op s.data hnew⟩
    · exact .inr ⟨hstack ▸ List.mem_cons_of_mem _ hrest, fun _ => hrest⟩
  · rw [Function.update_of_ne hother] at hmem
    exact .inr ⟨hmem, fun heq => absurd heq hother⟩

end Exec

end ThreadWeaver.Collection
